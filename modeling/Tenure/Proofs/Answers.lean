/-
  Tenure — answers of actions that may fault.

  An action made of two answers if the first does and the second does on what the
  first left.  These lemmas take such an answer apart, so that no proof has to look
  into the definition of the sequence.

  * `Action.Answers`, `Action.AnswersUnless`: only a sum that runs over keeps an action from
    an answer.
  * `Action.Yields`: its answer is of some kind, and so is the state where a sum runs over.
  * `Action.passes`, `Action.accepts`: checks of an answer that can be evaluated.
-/
import Tenure.Fault

namespace Tenure

theorem bind_eq_ok_iff {α β : Type} {x : Except Fault α} {f : α → Except Fault β} {b : β} :
    x >>= f = .ok b ↔ ∃ a, x = .ok a ∧ f a = .ok b := by
  cases x with
  | error e => simp [bind, Except.bind]
  | ok a => simp [bind, Except.bind]

theorem ok_bind {α β : Type} (a : α) (f : α → Except Fault β) : (Except.ok a >>= f) = f a := rfl

namespace Action

variable {σ α β : Type}

theorem bind_eq_ok_iff {x : Action σ α} {f : α → Action σ β} {s s' : σ} {b : β} :
    (x >>= f) s = .ok b s' ↔ ∃ a t, x s = .ok a t ∧ f a t = .ok b s' := by
  simp only [bind, EStateM.bind]
  cases x s with
  | error e t => simp
  | ok a t => simp [and_assoc]

theorem bind_eq_error_iff {x : Action σ α} {f : α → Action σ β} {s s' : σ} {e : Fault} :
    (x >>= f) s = .error e s' ↔
      x s = .error e s' ∨ ∃ a t, x s = .ok a t ∧ f a t = .error e s' := by
  simp only [bind, EStateM.bind]
  cases x s with
  | error e t => simp
  | ok a t => simp [and_assoc]

/-- The action comes to an answer, or a sum runs over, which needs that `cause` holds. -/
def AnswersUnless (cause : Prop) (x : Action σ α) (s : σ) : Prop :=
  (∃ a s', x s = .ok a s') ∨ (cause ∧ ∃ s', x s = .error .additionOverflow s')

/-- The action comes to an answer, unless a counter runs over. -/
def Answers (x : Action σ α) (s : σ) : Prop :=
  (∃ a s', x s = .ok a s') ∨ ∃ s', x s = .error .additionOverflow s'

variable {cause : Prop} {x : Action σ α} {f : α → Action σ β} {s s' t : σ} {a : α}

theorem AnswersUnless.of_ok (h : x s = .ok a t) : x.AnswersUnless cause s :=
  Or.inl ⟨a, t, h⟩

theorem AnswersUnless.bind (hx : x.AnswersUnless cause s)
    (hf : ∀ a s', x s = .ok a s' → (f a).AnswersUnless cause s') :
    AnswersUnless cause (x >>= f) s := by
  rcases hx with ⟨a, s', hx⟩ | ⟨hc, s', hx⟩
  · rcases hf a s' hx with ⟨b, s'', hb⟩ | ⟨hc, s'', hb⟩
    · exact Or.inl ⟨b, s'', bind_eq_ok_iff.2 ⟨a, s', hx, hb⟩⟩
    · exact Or.inr ⟨hc, s'', bind_eq_error_iff.2 (Or.inr ⟨a, s', hx, hb⟩)⟩
  · exact Or.inr ⟨hc, s', bind_eq_error_iff.2 (Or.inl hx)⟩

/-- The action comes to an answer of some kind, or a sum runs over in a state for which `cause`
    holds. -/
def Yields (cause : σ → Prop) (x : Action σ α) (s : σ) (P : α → σ → Prop) : Prop :=
  (∃ a t, x s = .ok a t ∧ P a t) ∨ ∃ t, x s = .error .additionOverflow t ∧ cause t

section Yields

variable {cause cause' : σ → Prop} {P P' : α → σ → Prop} {Q : β → σ → Prop}

theorem Yields.of_ok (h : x s = .ok a t) (hP : P a t) : x.Yields cause s P := Or.inl ⟨a, t, h, hP⟩

theorem Yields.imp (h : x.Yields cause s P) (hP : ∀ a t, P a t → P' a t) : x.Yields cause s P' :=
  h.imp_left fun ⟨a, t, hx, ha⟩ => ⟨a, t, hx, hP a t ha⟩

/-- What is known of an answer from elsewhere. -/
theorem Yields.answer (h : x.Yields cause s P) (hP : ∀ a t, x s = .ok a t → P' a t) :
    x.Yields cause s P' :=
  h.imp_left fun ⟨a, t, hx, _⟩ => ⟨a, t, hx, hP a t hx⟩

theorem Yields.because (h : x.Yields cause s P) (hc : ∀ t, cause t → cause' t) :
    x.Yields cause' s P :=
  h.imp_right fun ⟨t, hx, ht⟩ => ⟨t, hx, hc t ht⟩

theorem Yields.answersUnless (h : x.Yields cause s P) {p : Prop} (hc : ∀ t, cause t → p) :
    x.AnswersUnless p s :=
  Or.imp (fun ⟨a, t, hx, _⟩ => ⟨a, t, hx⟩) (fun ⟨t, hx, ht⟩ => ⟨hc t ht, t, hx⟩) h

theorem Yields.bind (hx : x.Yields cause s P) (hf : ∀ a t, P a t → (f a).Yields cause t Q) :
    Yields cause (x >>= f) s Q := by
  rcases hx with ⟨a, t, hx, ha⟩ | ⟨t, hx, hc⟩
  · rcases hf a t ha with ⟨b, u, hb, hQ⟩ | ⟨u, hb, hc⟩
    · exact Or.inl ⟨b, u, bind_eq_ok_iff.2 ⟨a, t, hx, hb⟩, hQ⟩
    · exact Or.inr ⟨u, bind_eq_error_iff.2 (Or.inr ⟨a, t, hx, hb⟩), hc⟩
  · exact Or.inr ⟨t, bind_eq_error_iff.2 (Or.inl hx), hc⟩

/-- A first action that is known to answer. -/
theorem Yields.step (hx : x s = .ok a t) (hf : (f a).Yields cause t Q) : Yields cause (x >>= f) s Q :=
  .bind (P := fun b u => b = a ∧ u = t) (.of_ok hx ⟨rfl, rfl⟩) fun _ _ ⟨ha, ht⟩ => ha ▸ ht ▸ hf

end Yields

theorem AnswersUnless.answers (h : x.AnswersUnless cause s) : x.Answers s := h.imp_right And.right

theorem Answers.unless (h : x.Answers s) : x.AnswersUnless True s := h.imp_right fun h => ⟨trivial, h⟩

theorem Answers.of_ok (h : x s = .ok a t) : x.Answers s := Or.inl ⟨a, t, h⟩

/-- A counter that runs over is the only fault. -/
theorem Answers.overflow (h : x.Answers s) {fault : Fault} (hf : x s = .error fault s') :
    fault = .additionOverflow := by
  rcases h with ⟨a, t, ht⟩ | ⟨t, ht⟩
  · rw [ht] at hf
    cases hf
  · rw [ht] at hf
    cases hf
    rfl

theorem Answers.bind (hx : x.Answers s) (hf : ∀ a s', x s = .ok a s' → (f a).Answers s') :
    Answers (x >>= f) s :=
  (hx.unless.bind fun a s' h => (hf a s' h).unless).answers

theorem lift_eq_ok_iff {x : Except Fault α} :
    (liftM x : Action σ α) s = .ok a s' ↔ x = .ok a ∧ s' = s := by
  cases x with
  | error e =>
    refine ⟨fun h => ?_, fun h => nomatch h.1⟩
    cases h
  | ok b =>
    constructor
    · intro h
      cases h
      exact ⟨rfl, rfl⟩
    · rintro ⟨h, rfl⟩
      cases h
      rfl

/-! ## Evaluation -/

theorem get_eq : (get : Action σ σ) = fun s => .ok s s := rfl

theorem modify_eq (f : σ → σ) : (modify f : Action σ PUnit) = fun s => .ok ⟨⟩ (f s) := rfl

/-- Whether an action answers with what passes a check. -/
def passes (x : Action σ α) (check : α → σ → Bool) (s : σ) : Bool :=
  match x s with
  | .ok a s' => check a s'
  | .error _ _ => false

theorem exists_of_passes {check : α → σ → Bool} (h : passes x check s = true) :
    ∃ a s', x s = .ok a s' ∧ check a s' = true := by
  unfold passes at h
  split at h
  · rename_i a s' ha
    exact ⟨a, s', ha, h⟩
  · cases h

/-- Whether an answer is no error and passes a check. -/
def accepts {ε : Type} (check : α → Bool) : Except ε α → Bool
  | .ok a => check a
  | .error _ => false

theorem exists_of_accepts {ε : Type} {check : α → Bool} {r : Except ε α}
    (h : accepts check r = true) : ∃ a, r = .ok a ∧ check a = true := by
  cases r with
  | ok a => exact ⟨a, rfl, h⟩
  | error e => cases h

end Action

end Tenure
