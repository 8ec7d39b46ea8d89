/-
  Tenure — the program.

  Reads the arguments, the clock and the file of settings, and writes the answer.
-/
import Tenure.CommandLine

namespace Tenure.Main

/-- Why a file could not be read. -/
def fileError : IO.Error → FileError
  | .noFileOrDirectory .. => .notFound
  | .permissionDenied .. => .permissionDenied
  | .inappropriateType _ code _ => if code = 20 then .notADirectory else .isADirectory
  | _ => .isADirectory

/-- The contents of the file that the options name. -/
def readConfig (o : Options) : IO (Except FileError ByteArray) := do
  match o.config with
  | none => return .error .notFound
  | some path =>
    try return .ok (← IO.FS.readBinFile path)
    catch error => return .error (fileError error)

/-- Goes through the phases of a run and measures each. -/
def measure (o : Options) : List (String × Phase) → Progress → IO RunOutcome
  | [], p => return p.finish o
  | (name, phase) :: rest, p => do
    let before ← IO.monoNanosNow
    let result ← IO.lazyPure fun _ => phase.run p
    let after ← IO.monoNanosNow
    match result with
    | .ok (.ok ()) p => measure o rest (p.recordPhase name (.ofNanos (after - before)))
    | .ok (.error error) p => return p.abort error
    | .error fault _ => throw (IO.userError fault.message)

/-- The whole program. -/
def start (arguments : List String) : IO UInt32 := do
  match CommandLine.options arguments with
  | .error refusal =>
    let stream ← if refusal.exitCode = 0 then IO.getStdout else IO.getStderr
    stream.putStr (CommandLine.Refusal.message refusal)
    return refusal.exitCode.toUInt32
  | .ok o =>
    let contents ← readConfig o
    let outcome ← match startRun o Toml.Value.ofText? (fun _ => contents) with
      | .error error => pure { error := some error }
      | .ok p => measure o (phases o) p
    let answer := CommandLine.answer o outcome
    (← IO.getStderr).putStr answer.errorText
    return answer.exitCode.toUInt32

end Tenure.Main

def main (arguments : List String) : IO UInt32 := Tenure.Main.start arguments
