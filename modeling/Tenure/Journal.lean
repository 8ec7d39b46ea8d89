/-
  Tenure — the journal.

  What happens in a heap and around it is noted as it happens.  Most notes are
  lines for a log; the end of a plain external value is noted without a line.

  * `Event`: the notes.
  * `Event.severity?`, `Event.message`: how a note is logged, if it is.
  * `Event.lines`, `Event.destroyed`: the log, and the values that are gone.
-/
import Tenure.Heap.Collect

namespace Tenure

/-- The severities of log lines. -/
inductive Severity
  | trace
  | debug
  | info
  | warn
  deriving DecidableEq, Repr

/-- The name of a severity. -/
def Severity.name : Severity → String
  | .trace => "TRACE"
  | .debug => "DEBUG"
  | .info => "INFO"
  | .warn => "WARN"

/-- Something that happened. -/
inductive Event
  | fullFor (cells : Nat)
  | rootsReleased (count : Nat)
  | markPhase
  | danglingIgnored (p : Address)
  | marked (summary : ReachedCells) (roots : Nat)
  | compacting (cells live : Nat)
  | copyPhase
  | fixupPhase (relocations : Nat)
  | collected (report : CollectionSummary)
  | refused (error : HeapError)
  | fileOpened (path : String)
  | fileClosed (path : String)
  | valueDestroyed (name : String)
  | listsAbandoned (lists : Nat)
  | runFinished (lists retained collections : Nat)
  deriving DecidableEq, Repr

namespace Event

/-- The severity of the log line, for events that are logged. -/
def severity? : Event → Option Severity
  | .fullFor _ | .rootsReleased _ | .markPhase | .danglingIgnored _ | .marked .. | .compacting ..
  | .copyPhase | .fixupPhase _ => some .trace
  | .collected _ | .fileOpened _ | .fileClosed _ | .listsAbandoned _ => some .debug
  | .runFinished .. => some .info
  | .refused _ => some .warn
  | .valueDestroyed _ => none

/-- The wording of an event. -/
def message : Event → String
  | .fullFor cells => s!"young generation full, collecting to allocate {cells} cells"
  | .rootsReleased count => s!"{count} owned roots released"
  | .markPhase => "mark phase"
  | .danglingIgnored p => s!"ignoring dangling pointer {p.text} during mark"
  | .marked summary roots =>
    s!"marked {summary.young} young and {summary.old} old cells from {roots} roots"
  | .compacting cells live => s!"compacting old generation: {cells} cells, {live} live"
  | .copyPhase => "copy phase"
  | .fixupPhase relocations => s!"fixup phase: {relocations} relocations"
  | .collected r =>
    s!"young collection: {r.survivors} survived, {r.promoted} promoted, {r.reclaimed} reclaimed" ++
      (if r.oldCollected then s!" (old compacted, {r.oldReclaimed} reclaimed)" else "")
  | .refused error => error.message
  | .fileOpened path => s!"creating file value for {path}"
  | .fileClosed path => s!"destroying file value for {path}"
  | .valueDestroyed name => s!"destroying {name}"
  | .listsAbandoned lists => s!"abandoning retained chain of {lists} lists"
  | .runFinished lists retained collections =>
    s!"{lists} lists allocated, {retained} retained, {collections} young collections"

/-- The log line of an event, if it is logged. -/
def line? (e : Event) : Option String :=
  e.severity?.map fun severity => severity.name ++ " " ++ e.message

/-- The log lines of a journal, in order. -/
def lines (journal : Array Event) : List String := journal.toList.filterMap line?

/-- The kinds of the plain values that came to their end in a journal, in order. -/
def destroyed (journal : Array Event) : List String :=
  journal.toList.filterMap fun
    | .valueDestroyed name => some name
    | _ => none

end Event

end Tenure
