/-
  Tenure — the command line.

  * `Parameter`: the options that take a value and the switches that do not, with
    their long and short names.
  * `CommandLine.scan`: the parameters given, in order.  A long option may have its
    value after an equals sign, a short one directly behind its letter, and either
    in the next argument.  Short switches may be bundled.
  * `CommandLine.options`: the options for a run, or why the arguments are refused.
  * `CommandLine.answer`: what the program writes and the code that it ends with.
-/
import Tenure.Text.Basic
import Tenure.Workload.Run

namespace Tenure

/-- What can be given on the command line. -/
inductive Parameter
  | iterations
  | listLength
  | retainEvery
  | retainWindow
  | config
  | youngCapacity
  | oldCapacity
  | oldHighWater
  | promotionThreshold
  | statistics
  | dumpHeap
  | help
  | version
  deriving DecidableEq, Repr

namespace Parameter

/-- All parameters. -/
def all : List Parameter :=
  [.iterations, .listLength, .retainEvery, .retainWindow, .config, .youngCapacity, .oldCapacity,
    .oldHighWater, .promotionThreshold, .statistics, .dumpHeap, .help, .version]

/-- The long name. -/
def longName : Parameter → String
  | .iterations => "iterations"
  | .listLength => "list-length"
  | .retainEvery => "retain-every"
  | .retainWindow => "retain-window"
  | .config => "config"
  | .youngCapacity => "young-capacity"
  | .oldCapacity => "old-capacity"
  | .oldHighWater => "old-high-water"
  | .promotionThreshold => "promotion-threshold"
  | .statistics => "statistics"
  | .dumpHeap => "dump-heap"
  | .help => "help"
  | .version => "version"

/-- The short name. -/
def shortName : Parameter → Option Char
  | .iterations => some 'n'
  | .listLength => some 'l'
  | .retainEvery => some 'r'
  | .retainWindow => some 'w'
  | .config => some 'c'
  | .statistics => some 'S'
  | .help => some 'h'
  | .version => some 'V'
  | _ => none

/-- Whether the parameter takes a value. -/
def takesValue : Parameter → Bool
  | .statistics | .dumpHeap | .help | .version => false
  | _ => true

/-- The value of an option that is given without one. -/
def standardValue : Parameter → Option String
  | .iterations => some "2000"
  | .listLength => some "20"
  | .retainEvery => some "0"
  | .retainWindow => some "0"
  | _ => none

/-- The number below which the value of an option has to stay, if it has to be a number. -/
def valueLimit : Parameter → Option Nat
  | .config | .statistics | .dumpHeap | .help | .version => none
  | .promotionThreshold => some 256
  | _ => some Word.limit

/-- The parameter with a long name. -/
def ofLong? (name : String) : Option Parameter := all.find? (·.longName == name)

/-- The parameter with a short name. -/
def ofShort? (name : Char) : Option Parameter := all.find? (·.shortName == some name)

end Parameter

/-- Why arguments are refused, or not followed by a run. -/
inductive Refusal
  | unknownArgument
  | valueInvalid
  | givenTwice
  | valueMissing
  | helpRequested
  | versionRequested
  deriving DecidableEq, Repr

/-- The code with which the program ends when it does not run. -/
def Refusal.exitCode : Refusal → Nat
  | .helpRequested | .versionRequested => 0
  | _ => 1

/-- One occurrence of a parameter, with its value if it has one. -/
structure Occurrence where
  parameter : Parameter
  value : Option String := none
  deriving DecidableEq, Repr

namespace CommandLine

/-- A parameter that was met without a value.  Help and version end the reading at once. -/
def occurrence (p : Parameter) (value : Option String) : Except Refusal Occurrence :=
  match p with
  | .help => .error .helpRequested
  | .version => .error .versionRequested
  | p => .ok ⟨p, if p.takesValue then value else none⟩

/-- The value behind a name: equals signs in front of it do not count. -/
def attached (cs : List Char) : String := String.ofList (cs.dropWhile (· = '='))

/-- Reads a long argument, given without its hyphens. -/
def readLong (cs : List Char) : Except Refusal Occurrence :=
  let name := String.ofList (cs.takeWhile (· ≠ '='))
  let value := if cs.contains '=' then some (attached (cs.dropWhile (· ≠ '='))) else none
  match Parameter.ofLong? name with
  | some p => occurrence p value
  | none => .error .unknownArgument

/-- Reads a bundle of short names, given without its hyphen.  The first option takes the rest
    of the bundle for its value. -/
def readShort : List Char → Except Refusal (List Occurrence)
  | [] => .ok []
  | c :: rest =>
    match Parameter.ofShort? c with
    | none => .error .unknownArgument
    | some p => do
      if p.takesValue then
        return [← occurrence p (if rest.isEmpty then none else some (attached rest))]
      else
        let first ← occurrence p none
        return first :: (← readShort rest)

/-- Whether an argument begins a new parameter.  A hyphen alone is a value. -/
def beginsParameter (cs : List Char) : Bool := cs.head? == some '-' && cs.length ≠ 1

/-- Whether the last parameter met still waits for a value. -/
def isWaiting (found : List Occurrence) : Bool :=
  match found with
  | last :: _ => last.parameter.takesValue && last.value.isNone
  | [] => false

/-- Reads arguments, after those in `found`, which are in reverse.  After two hyphens alone no
    argument is known. -/
def scan : List String → List Occurrence → Except Refusal (List Occurrence)
  | [], found => .ok found
  | argument :: rest, found =>
    let cs := argument.toList
    if argument = "--" then
      if rest.isEmpty then .ok found else .error .unknownArgument
    else if beginsParameter cs then
      if cs.take 2 = ['-', '-'] then do
        scan rest ((← readLong (cs.dropWhile (· = '-'))) :: found)
      else do
        scan rest ((← readShort (cs.dropWhile (· = '-'))).reverse ++ found)
    else
      match found with
      | last :: before =>
        if isWaiting found then scan rest ({ last with value := some argument } :: before)
        else .error .unknownArgument
      | [] => .error .unknownArgument

/-- A number: digits, perhaps after a plus sign, below a limit. -/
def number? (limit : Nat) (text : String) : Option Nat :=
  let digits := match text.toList with
    | '+' :: rest => rest
    | cs => cs
  (Text.natural? digits).filter (· < limit)

/-- The values given for a parameter, in order, or its standard value if it was given without
    one. -/
def valuesOf (p : Parameter) (found : List Occurrence) : List String :=
  let given := found.filter (·.parameter = p)
  let values := given.filterMap (·.value)
  if values.isEmpty then p.standardValue.toList else values

/-- Checks the occurrences of a parameter: it has a value if it takes one, its values are
    numbers where they have to be, and it is given once. -/
def checkParameter (found : List Occurrence) (p : Parameter) : Except Refusal Unit := do
  let count := (found.filter (·.parameter = p)).length
  if 0 < count then
    let values := valuesOf p found
    if p.takesValue && values.isEmpty then throw .valueMissing
    if let some limit := p.valueLimit then
      if values.any fun text => (number? limit text).isNone then throw .valueInvalid
    if 1 < count then throw .givenTwice

/-- Checks an option that ends the arguments and waits for a value. -/
def checkLast (found : List Occurrence) : Except Refusal Unit :=
  match found.reverse with
  | last :: _ =>
    if isWaiting found.reverse && (valuesOf last.parameter found).isEmpty then
      .error .valueMissing
    else .ok ()
  | [] => .ok ()

/-- The value of a parameter. -/
def value? (found : List Occurrence) (p : Parameter) : Option String := (valuesOf p found).head?

/-- The value of a parameter as a number. -/
def numberOf? (found : List Occurrence) (p : Parameter) : Option Nat := do
  number? (← p.valueLimit) (← value? found p)

/-- Whether a switch was given. -/
def has (found : List Occurrence) (p : Parameter) : Bool := found.any (·.parameter = p)

/-- The options that arguments stand for. -/
def options (arguments : List String) : Except Refusal Options := do
  let found := (← scan arguments []).reverse
  checkLast found
  Parameter.all.forM (checkParameter found)
  let standard : Options := {}
  return {
    iterations := (numberOf? found .iterations).getD standard.iterations
    listLength := (numberOf? found .listLength).getD standard.listLength
    retainEvery := (numberOf? found .retainEvery).getD standard.retainEvery
    retainWindow := (numberOf? found .retainWindow).getD standard.retainWindow
    config := value? found .config
    youngCapacity := numberOf? found .youngCapacity
    oldCapacity := numberOf? found .oldCapacity
    oldHighWater := numberOf? found .oldHighWater
    promotionThreshold := numberOf? found .promotionThreshold
    statistics := has found .statistics
    dumpHeap := has found .dumpHeap }

/-- What a program writes to its error stream, and the code that it ends with. -/
structure Answer where
  exitCode : Nat
  errorText : String
  deriving DecidableEq, Repr

/-- The heading of the figures. -/
def statisticsHeading : String := "\n~~~~~~~~~~\nSTATISTICS\n~~~~~~~~~~\n\n"

/-- The answer of the program to a run: the heap if it was to be shown, the error if there was
    one, and the figures if they were to be shown. -/
def answer (o : Options) (outcome : RunOutcome) : Answer where
  exitCode := (outcome.error.map (·.exitCode)).getD 0
  errorText :=
    (outcome.dump.map fun text => "Heap after run:\n\n" ++ text ++ "\n").getD "" ++
    (outcome.error.map fun error => error.message ++ "\n").getD "" ++
    (if o.statistics then statisticsHeading ++ outcome.figures.text ++ "\n" else "")

/-- How the program is used. -/
def usage : String :=
  "Exercise the generational heap of cons cells\n\n" ++
  "Options:\n" ++
  "  -n, --iterations <count>           lists to allocate [2000]\n" ++
  "  -l, --list-length <count>          cells in each list [20]\n" ++
  "  -r, --retain-every <count>         retain one list in so many, 0 for none [0]\n" ++
  "  -w, --retain-window <count>        abandon the retained lists at so many, 0 for never [0]\n" ++
  "  -c, --config <file>                heap settings in TOML\n" ++
  "      --young-capacity <cells>       capacity of each young buffer\n" ++
  "      --old-capacity <cells>         capacity of the old generation\n" ++
  "      --old-high-water <cells>       compact the old generation above this\n" ++
  "      --promotion-threshold <count>  young collections before promotion, 1 to 3\n" ++
  "  -S, --statistics                   show the figures of the run\n" ++
  "      --dump-heap                    show the heap at the end\n" ++
  "  -h, --help                         show this text\n" ++
  "  -V, --version                      show the version\n"

/-- The wording of a refusal. -/
def Refusal.message : Refusal → String
  | .unknownArgument => "error: unknown argument\n"
  | .valueInvalid => "error: invalid value for an option\n"
  | .givenTwice => "error: an argument was given more than once\n"
  | .valueMissing => "error: an option needs a value\n"
  | .helpRequested => usage
  | .versionRequested => "tenure 0.1.0\n"

end CommandLine

end Tenure
