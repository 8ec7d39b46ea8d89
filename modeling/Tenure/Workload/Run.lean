/-
  Tenure — a run of the exercise.

  The sample structure is built, many short lists are allocated, some of them are
  retained on a chain for a while, and at the end the structure and the chain are
  checked.

  * `Progress`: what a run has at hand.
  * `phases`: building, allocating, checking.  Only a phase that ends well is timed.
  * `run`: the whole exercise.  After an error the figures are those counted so far.
-/
import Tenure.Workload.Retained
import Tenure.Workload.Options
import Tenure.Workload.Figures

namespace Tenure

/-- What a run has at hand. -/
structure Progress where
  store : Store
  symbols : SymbolTable := {}
  sample : Option Sample := none
  chain : RetainedLists := {}
  figures : RunFigures := {}
  deriving Inhabited

/-- A part of a run, which may end with an error. -/
abbrev Phase := ExceptT RunError (Action Progress) Unit

namespace Progress

/-- An action on the store as a part of a run. -/
def onStore {α : Type} (action : Action Store α) : Action Progress α
  | ⟨store, symbols, sample, chain, figures⟩ =>
    match action store with
    | .ok a store => .ok a ⟨store, symbols, sample, chain, figures⟩
    | .error fault store => .error fault ⟨store, symbols, sample, chain, figures⟩

/-- An attempt on the store as a part of a run. -/
def attempt {α : Type} (action : Attempt α) : ExceptT RunError (Action Progress) α :=
  ExceptT.mk (onStore action.run)

/-- Changes the store. -/
def mapStore (f : Store → Store) (p : Progress) : Progress := { p with store := f p.store }

/-- A verdict as a part of a run. -/
def conclude : Verdict → Phase
  | .corrupted finding => throw (.corrupted finding)
  | .intact => pure ()
  | .endless => (throw .endless : Action Progress Unit)

/-- Makes the sample structure. -/
def build : Phase := do
  let symbols := (← get).symbols
  let (symbols, built) ←
    (onStore (Sample.build symbols) : Action Progress (SymbolTable × Except RunError Sample))
  modify fun p => { p with symbols }
  match built with
  | .ok sample => modify fun p => { p with sample := some sample }
  | .error error => throw error

/-- Puts a list on the chain. -/
def retain (list : Address) (iteration : Nat) : Phase := do
  let chain ← attempt ((← get).chain.push list iteration)
  modify fun p => { p with chain }

/-- Gives up the lists on the chain. -/
def releaseChain (p : Progress) : Progress :=
  { p with store := p.chain.release p.store, chain := {} }

/-- Abandons the retained lists once there are as many as the window. -/
def keepWindow (o : Options) : Phase := do
  let size := (← get).chain.size
  if o.retainWindow > 0 ∧ size ≥ o.retainWindow then
    modify fun p => (p.mapStore (·.log (.listsAbandoned size))).releaseChain

/-- Whether the list of an iteration is retained. -/
def keeps (o : Options) (iteration : Nat) : Bool :=
  o.retainEvery > 0 && (iteration + 1) % o.retainEvery = 0

/-- One iteration: a list, which may be retained. -/
def iterate (o : Options) (iteration : Nat) : Phase := do
  let list ← attempt (filledList o.listLength iteration)
  if keeps o iteration then
    retain list iteration
    keepWindow o
  modify fun p => { p with figures := p.figures.countList (keeps o iteration) }

/-- So many iterations from one on. -/
def churn (o : Options) : Nat → Nat → Phase
  | 0, _ => pure ()
  | remaining + 1, iteration => do
    iterate o iteration
    churn o remaining (iteration + 1)

/-- Checks the sample structure and the chain. -/
def check (o : Options) : Phase := do
  let p ← get
  if let some sample := p.sample then conclude (sample.verify p.store)
  conclude (← (p.chain.verify p.store.heap o.listLength : Except Fault Verdict))

end Progress

/-- The phases of a run with their names. -/
def phases (o : Options) : List (String × Phase) :=
  [("build", Progress.build), ("churn", Progress.churn o o.iterations 0),
    ("verify", Progress.check o)]

/-- How a run ended. -/
structure RunOutcome where
  figures : RunFigures := {}
  error : Option RunError := none
  /-- The heap at the end, if it was to be shown. -/
  dump : Option String := none
  journal : Array Event := #[]
  deriving Inhabited

namespace Progress

/-- Notes a phase that ended well. -/
def recordPhase (name : String) (elapsed : Duration) (p : Progress) : Progress :=
  { p with figures := p.figures.recordPhase name elapsed }

/-- Gives up the sample structure and the heap. -/
def drop (p : Progress) : Store :=
  ((p.sample.map fun d => d.drop p.store).getD p.store).dropHeap

/-- The outcome of a run that ended early. -/
def abort (p : Progress) (error : RunError) : RunOutcome where
  figures := p.figures
  error := some error
  journal := p.drop.journal

/-- The outcome of a run that went through all phases. -/
def finish (o : Options) (p : Progress) : RunOutcome :=
  let heap := p.store.heap
  let event : Event :=
    .runFinished p.figures.allocated p.chain.size heap.counters.youngCollections
  let figures := p.figures.withHeap heap.occupancy heap.counters
  let p := p.mapStore (·.log event)
  let dump := if o.dumpHeap then some p.store.heapText else none
  let p := p.releaseChain
  let store := (p.sample.map fun d => d.release p.store).getD p.store
  { figures, dump, journal := store.dropHeap.journal }

end Progress

/-- The start of a run: an empty heap, or the error that prevents it. -/
def startRun (o : Options) (parse : Toml.Parse) (files : Files) : Except RunError Progress := do
  match Heap.make? (← o.settings parse files) 0 with
  | .ok heap => return { store := { heap } }
  | .error error => throw (.heap error)

/-- Goes through phases. -/
def runPhases (o : Options) : List (String × Phase) → Progress → Except Fault RunOutcome
  | [], p => .ok (p.finish o)
  | (name, phase) :: rest, p =>
    match phase.run p with
    | .ok (.ok ()) p => runPhases o rest (p.recordPhase name .zero)
    | .ok (.error error) p => .ok (p.abort error)
    | .error fault _ => .error fault

/-- The whole exercise.  There is no clock here, so the phases are recorded with no time; a
    program that has one goes through `phases` itself. -/
def run (o : Options) (parse : Toml.Parse) (files : Files) : Except Fault RunOutcome :=
  match startRun o parse files with
  | .error error => .ok { error := some error }
  | .ok p => runPhases o (phases o) p

end Tenure
