/-
  Tenure — attempts.

  An attempt succeeds, or ends with an error, or meets a fault.  These lemmas follow one
  action after the other, with what is known of its answer and of the state that it leaves.

  * `RunError.Harmless`: the errors that are no corruption.
  * `EndsWell`: an attempt succeeds in some way, or ends with a harmless error, unless a sum
    runs over.
  * `Attempt.bind_eq_ok_iff` and the lemmas after it: what the parts of an attempt came to that
    came to an end; `bind_ok`, `ofHeap_ok`: of one that succeeded.
-/
import Tenure.Proofs.Answers
import Tenure.Workload.Error

namespace Tenure

/-- An error that is no corruption. -/
def RunError.Harmless (e : RunError) : Prop := ∀ finding, e ≠ .corrupted finding

theorem RunError.harmless_heap (error : HeapError) : (RunError.heap error).Harmless :=
  fun _ h => nomatch h

variable {σ α β : Type} {cause : σ → Prop} {x : ExceptT RunError (Action σ) α}
  {f : α → ExceptT RunError (Action σ) β} {s t : σ} {a : α} {P : α → σ → Prop} {Q : β → σ → Prop}

/-- What is asked of the end of an attempt. -/
def Ends (P : α → σ → Prop) : Except RunError α → σ → Prop
  | .ok a, t => P a t
  | .error e, _ => e.Harmless

/-- The attempt succeeds in some way or ends with a harmless error, or a sum runs over in a state for
    which `cause` holds. -/
def EndsWell (cause : σ → Prop) (x : ExceptT RunError (Action σ) α) (s : σ) (P : α → σ → Prop) : Prop :=
  Action.Yields cause x.run s (Ends P)

namespace EndsWell

theorem of_ok (h : x.run s = .ok (.ok a) t) (hP : P a t) : EndsWell cause x s P :=
  Action.Yields.of_ok h hP

theorem of_error {e : RunError} (h : x.run s = .ok (.error e) t) (he : e.Harmless) :
    EndsWell cause x s P :=
  Action.Yields.of_ok h he

theorem bind (hx : EndsWell cause x s P) (hf : ∀ a t, P a t → EndsWell cause (f a) t Q) :
    EndsWell cause (x >>= f) s Q := by
  refine Action.Yields.bind hx ?_
  rintro (e | a) t h
  · exact .of_ok rfl h
  · exact hf a t h

theorem step (hx : x.run s = .ok (.ok a) t) (hf : EndsWell cause (f a) t Q) :
    EndsWell cause (x >>= f) s Q :=
  Action.Yields.step hx hf

/-- An action that has no errors. -/
theorem lift {x : Action σ α} (h : x.Yields cause s P) :
    EndsWell cause (liftM x : ExceptT RunError (Action σ) α) s P :=
  Action.Yields.bind h fun _ _ ha => .of_ok rfl ha

/-- A request to the heap, the refusal of which is harmless. -/
theorem ofHeap {α : Type} {cause : Store → Prop} {s : Store} {P : α → Store → Prop}
    {request : Action Store (Except HeapError α)} {R : Except HeapError α → Store → Prop}
    (h : request.Yields cause s R) (hP : ∀ a t, R (.ok a) t → P a t) :
    EndsWell cause (Attempt.ofHeap request) s P := by
  refine Action.Yields.bind h ?_
  rintro (error | a) t ha
  · exact .of_ok rfl (RunError.harmless_heap error)
  · exact .of_ok rfl (hP a t ha)

end EndsWell

/-! ## What an attempt came to -/

namespace Attempt

theorem get_eq : (get : ExceptT RunError (Action σ) σ) = fun s => .ok (.ok s) s := rfl

theorem modify_eq (f : σ → σ) : (modify f : ExceptT RunError (Action σ) PUnit) =
    fun s => .ok (.ok ⟨⟩) (f s) := rfl

theorem run_get_bind (f : σ → ExceptT RunError (Action σ) α) (s : σ) :
    (get >>= f : ExceptT RunError (Action σ) α).run s = (f s).run s := rfl

theorem bind_eq_ok_iff {r : Except RunError β} {u : σ} : (x >>= f).run s = .ok r u ↔
    (∃ a t, x.run s = .ok (.ok a) t ∧ (f a).run t = .ok r u) ∨
      ∃ e, x.run s = .ok (.error e) u ∧ r = .error e := by
  constructor
  · intro h
    obtain ⟨a, t, hx, h⟩ := Action.bind_eq_ok_iff.1 h
    cases a with
    | ok a => exact Or.inl ⟨a, t, hx, h⟩
    | error e =>
      cases h
      exact Or.inr ⟨e, hx, rfl⟩
  · rintro (⟨a, t, hx, h⟩ | ⟨e, hx, rfl⟩)
    · exact Action.bind_eq_ok_iff.2 ⟨_, t, hx, h⟩
    · exact Action.bind_eq_ok_iff.2 ⟨_, u, hx, rfl⟩

/-- An action that has no errors. -/
theorem lift_bind_eq_ok {x : Action σ α} {r : Except RunError β} {u : σ}
    (h : ((liftM x : ExceptT RunError (Action σ) α) >>= f).run s = .ok r u) :
    ∃ a t, x s = .ok a t ∧ (f a).run t = .ok r u := by
  rcases bind_eq_ok_iff.1 h with ⟨a, t, hx, h⟩ | ⟨e, hx, -⟩
  · obtain ⟨a', t', hx, ha⟩ := Action.bind_eq_ok_iff.1 hx
    cases ha
    exact ⟨a, t, hx, h⟩
  · obtain ⟨a', t', -, ha⟩ := Action.bind_eq_ok_iff.1 hx
    cases ha

/-- A number or an address that has to fit. -/
theorem fits_bind_eq_ok {x : Except Fault α} {r : Except RunError β} {u : σ}
    (h : ((liftM x : ExceptT RunError (Action σ) α) >>= f).run s = .ok r u) :
    ∃ a, x = .ok a ∧ (f a).run s = .ok r u := by
  cases x with
  | ok a => exact ⟨a, rfl, h⟩
  | error fault => cases h

/-- A request to the heap. -/
theorem ofHeap_bind_eq_ok {request : Action Store (Except HeapError α)} {f : α → Attempt β} {s u : Store}
    {r : Except RunError β} (h : (ofHeap request >>= f).run s = .ok r u) :
    (∃ a t, request s = .ok (.ok a) t ∧ (f a).run t = .ok r u) ∨
      ∃ error, request s = .ok (.error error) u ∧ r = .error (.heap error) := by
  rcases bind_eq_ok_iff.1 h with ⟨a, t, hx, h⟩ | ⟨e, hx, rfl⟩
  · obtain ⟨a' | a', t', hx, ha⟩ := Action.bind_eq_ok_iff.1 hx
    · cases ha
    · cases ha
      exact Or.inl ⟨a, t, hx, h⟩
  · obtain ⟨a' | a', t', hx, ha⟩ := Action.bind_eq_ok_iff.1 hx
    · cases ha
      exact Or.inr ⟨a', hx, rfl⟩
    · cases ha

theorem bind_ok {b : β} {u : σ} (h : (x >>= f).run s = .ok (.ok b) u) :
    ∃ a t, x.run s = .ok (.ok a) t ∧ (f a).run t = .ok (.ok b) u := by
  rcases bind_eq_ok_iff.1 h with h | ⟨e, -, he⟩
  · exact h
  · cases he

theorem ofHeap_ok {request : Action Store (Except HeapError α)} {s t : Store} {a : α}
    (h : (ofHeap request).run s = .ok (.ok a) t) : request s = .ok (.ok a) t := by
  obtain ⟨r, t', hr, h⟩ := Action.bind_eq_ok_iff.1 h
  cases r with
  | ok a' =>
    cases h
    exact hr
  | error error => cases h

end Attempt

end Tenure
