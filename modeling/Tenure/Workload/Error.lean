/-
  Tenure — how an exercise of the heap can fail.

  * `Corruption`: what a verifier found wrong.
  * `FileError`: why a file could not be read.
  * `RunError`: everything that ends a run, with its wording and its exit code.
  * `Attempt`: an action on the store that may end with a run error.
-/
import Tenure.Store.Allocate

namespace Tenure

/-- What a verifier found wrong. -/
inductive Corruption
  | rootVanished (id : RootId)
  | sampleLinkLost
  | sampleRootMissing
  | sampleLength (found : Nat)
  | sampleKinds (found : List SlotKind)
  | samplePayloads
  | sampleRootNotMoved
  | linkedReferences (found : Nat)
  | pendingListLost
  | retainedListLost
  | chainLength (found expected : Nat)
  | listLength (iteration found expected : Nat)
  | listChanged (iteration position : Nat)
  deriving DecidableEq, Repr

/-- The wording of a finding. -/
def Corruption.message : Corruption → String
  | .rootVanished id => s!"root {id.text} vanished"
  | .sampleLinkLost => "demo link lost during build"
  | .sampleRootMissing => "demo root missing"
  | .sampleLength found => s!"demo list has {found} cells, expected 5"
  | .sampleKinds found => "demo list tags [" ++ ", ".intercalate (found.map (·.name)) ++ "]"
  | .samplePayloads => "demo list payloads changed"
  | .sampleRootNotMoved => "demo root not relocated with its cell"
  | .linkedReferences found => s!"linked file value has {found} references"
  | .pendingListLost => "pending list lost across collection"
  | .retainedListLost => "retained list lost across collection"
  | .chainLength found expected => s!"retained chain has {found} lists, expected {expected}"
  | .listLength iteration found expected =>
    s!"retained list {iteration} has {found} cells, expected {expected}"
  | .listChanged iteration position =>
    s!"retained list {iteration} changed at position {position}"

/-- Why a file could not be read. -/
inductive FileError
  | notFound
  | permissionDenied
  | notADirectory
  | isADirectory
  | notText
  deriving DecidableEq, Repr

/-- The wording of a file error. -/
def FileError.message : FileError → String
  | .notFound => "No such file or directory (os error 2)"
  | .permissionDenied => "Permission denied (os error 13)"
  | .notADirectory => "Not a directory (os error 20)"
  | .isADirectory => "Is a directory (os error 21)"
  | .notText => "stream did not contain valid UTF-8"

/-- What ends a run early. -/
inductive RunError
  | heap (error : HeapError)
  | settings (error : SettingsError)
  | file (error : FileError)
  | corrupted (finding : Corruption)
  deriving DecidableEq, Repr

namespace RunError

/-- The wording of an error. -/
def message : RunError → String
  | .heap error => error.message
  | .settings error => error.message
  | .file error => error.message
  | .corrupted finding => "heap verification failed: " ++ finding.message

/-- The code with which a program ends: corruption is told apart from the rest. -/
def exitCode : RunError → Nat
  | .corrupted _ => 1
  | _ => 2

end RunError

/-- What a verifier answers. -/
inductive Verdict
  | intact
  | corrupted (finding : Corruption)
  /-- A list that was to be followed never ends. -/
  | endless
  deriving DecidableEq, Repr

/-- An action on the store that may end with a run error. -/
abbrev Attempt (α : Type) := ExceptT RunError (Action Store) α

namespace Attempt

/-- A request to the heap, whose refusal ends the run. -/
def ofHeap {α : Type} (request : Action Store (Except HeapError α)) : Attempt α :=
  ExceptT.mk do
    match ← request with
    | .ok a => return .ok a
    | .error error => return .error (.heap error)

/-- A thing that has to be there. -/
def require {α : Type} (found : Option α) (finding : Corruption) : Attempt α :=
  match found with
  | some a => pure a
  | none => throw (.corrupted finding)

end Attempt

end Tenure
