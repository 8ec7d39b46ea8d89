/-
  Tenure — the lines of a TOML document.

  * `Written`: a value as it is written, before keys are compared.
  * `Section`: the values under one table header, or those before the first.
  * `sections?`: the sections of a document in their order.

  A reader is a function on the characters that are left; it fails without an
  answer where the document is malformed.
-/
import Tenure.Toml.Number

namespace Tenure.Toml

/-- A value as it is written. -/
inductive Written
  | integer (n : Int)
  | float
  | boolean (b : Bool)
  | string (content : String)
  | dateTime (written : List Char)
  | array (items : List Written)
  /-- A table with its keys in order.  It is open if it was made by keys with periods, which may
      add to it later. -/
  | table (isOpen : Bool) (entries : List (String × Written))
  deriving Inhabited

/-- Keys with their values, in order. -/
abbrev Entries := List (String × Written)

namespace Entries

/-- Replaces the first value under a key. -/
def replace (key : String) (value : Written) : Entries → Entries
  | [] => []
  | (k, v) :: rest => if k = key then (k, value) :: rest else (k, v) :: replace key value rest

/-- Puts a value under a key with periods: each part but the last names an open table. -/
def insert (value : Written) : List String → Entries → Option Entries
  | [], _ => none
  | [key], entries => some (entries ++ [(key, value)])
  | key :: path, entries =>
    match entries.lookup key with
    | some (.table true inner) =>
      (insert value path inner).map fun inner => replace key (.table true inner) entries
    | some _ => none
    | none => (insert value path []).map fun inner => entries ++ [(key, .table true inner)]

end Entries

/-- A part of a document with a table header, or the part before the first header. -/
structure Section where
  /-- The parts of the header. -/
  header : List String := []
  /-- Whether the header stands in double brackets and names an element of an array. -/
  isElement : Bool := false
  /-- The values, or nothing before the first of a part without header. -/
  entries : Option Entries := none
  deriving Inhabited

/-- A reader of the characters that are left. -/
abbrev Reader := StateT (List Char) Option

namespace Reader

/-- Takes the next token off. -/
def next : Reader (Option Token) := Token.next?

/-- Looks at the next token. -/
def peek : Reader (Option Token) := fun cs => (Token.next? cs).map fun (token, _) => (token, cs)

/-- Takes a token off if it is the next one. -/
def accept (token : Token) : Reader Bool := do
  if (← peek) = some token then
    discard next
    return true
  else return false

/-- Takes a token off that has to be the next one. -/
def expect (token : Token) : Reader Unit := do
  guard ((← next) = some token)

/-- Takes blanks off. -/
def skipBlanks : Reader Unit := modify (·.dropWhile isBlank)

/-- Takes the end of a line off, or is at the end of the document. -/
def endOfLine : Reader Unit := do
  match ← next with
  | none | some .newline => pure ()
  | some _ => failure

/-- Takes a comment off, with the end of its line. -/
def comment : Reader Bool := do
  match ← get with
  | '#' :: rest =>
    set (rest.dropWhile isCommentChar)
    endOfLine
    return true
  | _ => return false

/-- Takes blanks and a comment off, and the end of the line. -/
def restOfLine : Reader Unit := do
  skipBlanks
  unless ← comment do endOfLine

/-- Takes blanks, comments and line ends off, within a number of lines. -/
def skipLines : Nat → Reader Unit
  | 0 => pure ()
  | lines + 1 => do
    skipBlanks
    if ← comment then skipLines lines
    else if ← accept .newline then skipLines lines
    else pure ()

/-- The number of characters left, which bounds the number of steps. -/
def bound : Reader Nat := return (← get).length + 1

/-- A part of a key: a word, or a quoted text on one line. -/
def keyPart : Reader String := do
  match ← next with
  | some (.word written) => return String.ofList written
  | some (.quoted content false) => return String.ofList content
  | _ => failure

/-- Further parts of a key, each after a period. -/
def keyParts : Nat → Reader (List String)
  | 0 => return []
  | steps + 1 => do
    if ← accept .period then
      skipBlanks
      let part ← keyPart
      skipBlanks
      return part :: (← keyParts steps)
    else return []

/-- A key: parts with periods between them. -/
def key : Reader (List String) := do
  let first ← keyPart
  skipBlanks
  return first :: (← keyParts (← bound))

/-- The exponent of a float whose digits end with the characters given.  Its sign may be a
    token of its own. -/
def exponent : List Char → Reader (Option DigitRun)
  | [] => return none
  | e :: rest => do
    guard (e = 'e' ∨ e = 'E')
    let run ←
      if rest.isEmpty then do
        discard (accept .plus)
        match ← next with
        | some (.word written) => monadLift (digitRun .fraction written)
        | _ => failure
      else monadLift (digitRun .exponent rest)
    guard run.rest.isEmpty
    return some run

/-- A float, from the word before the point and the word after it. -/
def float (whole : List Char) (fraction : Option (List Char)) : Reader Written := do
  let whole ← monadLift (digitRun .decimal whole)
  let (fraction, rest) ← match fraction with
    | none => pure ([], whole.rest)
    | some written => do
      guard whole.rest.isEmpty
      let run ← monadLift (digitRun .fraction written)
      pure (run.digits, run.rest)
  let power : Int := match ← exponent rest with
    | none => 0
    | some run => if run.negative then -run.magnitude 10 else run.magnitude 10
  guard (isFinite (whole.digits ++ fraction) (power - fraction.length))
  return .float

/-- A number that begins with a word. -/
def number (word : List Char) : Reader Written := do
  let inBase (base : Nat) : Reader Written := do
    return .integer (← monadLift (integer? (.inBase base) (word.drop 2)))
  let text := String.ofList word
  if word.take 2 = ['0', 'x'] then inBase 16
  else if word.take 2 = ['0', 'o'] then inBase 8
  else if word.take 2 = ['0', 'b'] then inBase 2
  else if word.contains 'e' || word.contains 'E' then float word none
  else if ← accept .period then
    match ← next with
    | some (.word after) => float word (some after)
    | _ => failure
  else if ["inf", "-inf", "nan", "-nan"].contains text then return .float
  else return .integer (← monadLift (integer? .decimal word))

/-- A word that has to be the next token. -/
def word : Reader Unit := do
  match ← next with
  | some (.word _) => pure ()
  | _ => failure

/-- The time of day in a date and time, after its hour. -/
def timeOfDay : Reader Unit := do
  word
  expect .colon
  word
  if ← accept .period then word
  if ← accept .plus then word
  if ← accept .colon then word

/-- A blank and a word, if they are the next tokens: the hour after a date. -/
def hourAfterBlank : Reader Unit := fun cs =>
  match Token.next? cs with
  | some (some (.blanks [' ']), rest) =>
    match Token.next? rest with
    | some (some (.word _), rest) => some ((), rest)
    | _ => some ((), cs)
  | _ => some ((), cs)

/-- A date or time that begins with a word.  Its characters are those from `start` on. -/
def dateTime (start : List Char) (afterHour : Bool) : Reader Written := do
  hourAfterBlank
  if afterHour then timeOfDay
  else if ← accept .colon then timeOfDay
  return .dateTime (start.take (start.length - (← get).length))

/-- Whether a word that begins like a number is the beginning of a date. -/
def looksLikeDate (word : List Char) : Bool :=
  let hasExponent := (List.zip word (word.drop 1)).any fun (a, b) => (a = 'e' || a = 'E') && b = '-'
  word.contains 'T' || word.contains 't' || (word.drop 1).contains '-' && !hasExponent

/-- A number or a date that begins with a word. -/
def numberOrDate (start word : List Char) : Reader Written := do
  if looksLikeDate word then dateTime start false
  else if ← accept .colon then dateTime start true
  else number word

/-- A value that is one word or begins with one. -/
def wordValue (start word : List Char) : Reader Written := do
  let text := String.ofList word
  if text = "true" then return .boolean true
  else if text = "false" then return .boolean false
  else if text = "inf" ∨ text = "nan" ∨ word.head?.any (fun c => c = '-' || c.isDigit) then
    numberOrDate start word
  else failure

mutual

/-- A value, within a depth of nesting and length of lists. -/
def value : Nat → Reader Written
  | 0 => failure
  | fuel + 1 => do
    let start ← get
    match ← next with
    | some (.quoted content _) => return .string (String.ofList content)
    | some (.word word) => wordValue start word
    | some .plus =>
      match ← next with
      | some (.word word) => number word
      | _ => failure
    | some .openBrace =>
      skipBlanks
      if ← accept .closeBrace then return .table false []
      else return .table false (← inlineEntries fuel [])
    | some .openBracket => return .array (← items fuel)
    | _ => failure

/-- The entries of a table in braces, after those read before, with the closing brace. -/
def inlineEntries : Nat → Entries → Reader Entries
  | 0, _ => failure
  | fuel + 1, entries => do
    let path ← key
    expect .equals
    skipBlanks
    let v ← value fuel
    let entries ← monadLift (Entries.insert v path entries)
    skipBlanks
    if ← accept .closeBrace then return entries
    expect .comma
    skipBlanks
    inlineEntries fuel entries

/-- The items of an array, with the closing bracket. -/
def items : Nat → Reader (List Written)
  | 0 => failure
  | fuel + 1 => do
    skipLines (← bound)
    if ← accept .closeBracket then return []
    let item ← value fuel
    skipLines (← bound)
    if ← accept .comma then return item :: (← items fuel)
    expect .closeBracket
    return [item]

end

/-- A line of a key and its value. -/
def keyValue : Reader (List String × Written) := do
  let path ← key
  expect .equals
  skipBlanks
  let v ← value (2 * (← bound))
  restOfLine
  return (path, v)

/-- The header of a section. -/
def header : Reader Section := do
  expect .openBracket
  let isElement ← accept .openBracket
  skipBlanks
  let path ← key
  expect .closeBracket
  if isElement then expect .closeBracket
  restOfLine
  return { header := path, isElement, entries := some [] }

/-- The sections of a document, in reverse, with the one that is open in front. -/
def lines : Nat → List Section → Reader (List Section)
  | 0, done => return done
  | steps + 1, done => do
    skipLines (← bound)
    match ← peek with
    | none => return done
    | some .openBracket => lines steps ((← header) :: done)
    | some _ =>
      let (path, v) ← keyValue
      match done with
      | [] => failure
      | current :: before =>
        let entries ← monadLift (Entries.insert v path (current.entries.getD []))
        lines steps ({ current with entries := some entries } :: before)

end Reader

/-- The sections of a document that have a header or values. -/
def sections? (text : String) : Option (List Section) := do
  let cs := characters text
  let (found, _) ← Reader.lines (cs.length + 1) [{}] |>.run cs
  return found.reverse.filter fun s => !s.header.isEmpty || s.entries.isSome

end Tenure.Toml
