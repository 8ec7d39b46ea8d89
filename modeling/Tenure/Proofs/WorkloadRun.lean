/-
  Tenure — runs of the exercise.

  * `Options.kept`, `Options.held`: the iterations whose lists are retained, and those of them
    whose lists are still on the chain.
  * `Underway`: a run after so many iterations: the sample structure stands, the chain stands
    with the lists that are held, and the figures are right.
  * `endsWell_build`, `endsWell_iterate`, `endsWell_churn`: the phases bring this about.
  * `Underway.check`: and then the check finds everything intact.
  * `Options.StopsAt`: where a run stops that does not come to an end; `run_sound`: this takes very
    many iterations.
  * `run_intact`: no run reports corruption, whatever the options.
-/
import Tenure.Proofs.RetainedLists
import Tenure.Workload.Run

namespace Tenure

/-! ## Retained iterations -/

namespace Options

/-- The retained ones among the first iterations. -/
def kept (o : Options) (n : Nat) : List Nat := (List.range n).filter (Progress.keeps o)

/-- How many of so many retained lists are on the chain: all of them, or those since it was
    abandoned last. -/
def onChain (o : Options) (m : Nat) : Nat := if o.retainWindow = 0 then m else m % o.retainWindow

/-- The iterations of the lists on the chain after so many iterations, the most recent ones. -/
def held (o : Options) (n : Nat) : List Nat :=
  (o.kept n).drop ((o.kept n).length - o.onChain (o.kept n).length)

variable {o : Options} {n : Nat}

theorem kept_succ (o : Options) (n : Nat) :
    o.kept (n + 1) = if Progress.keeps o n then o.kept n ++ [n] else o.kept n := by
  rw [kept, List.range_succ, List.filter_append, List.filter_singleton]
  cases Progress.keeps o n
  · exact List.append_nil _
  · rfl

theorem length_kept (o : Options) (n : Nat) : (o.kept n).length = n / o.retainEvery := by
  induction n with
  | zero => simp [kept]
  | succ n ih =>
    have hkeeps : Progress.keeps o n = true ↔ o.retainEvery ∣ n + 1 := by
      rw [Progress.keeps, Bool.and_eq_true, decide_eq_true_iff, decide_eq_true_iff,
        Nat.dvd_iff_mod_eq_zero]
      refine and_iff_right_of_imp fun h => Nat.pos_iff_ne_zero.2 fun h0 => ?_
      rw [h0, Nat.mod_zero] at h
      cases h
    rw [kept_succ, Nat.succ_div, ← ih]
    by_cases hk : o.retainEvery ∣ n + 1
    · rw [if_pos (hkeeps.2 hk), if_pos hk, List.length_append, List.length_singleton]
    · rw [if_neg (mt hkeeps.1 hk), if_neg hk, Nat.add_zero]

theorem onChain_le (o : Options) (m : Nat) : o.onChain m ≤ m := by
  unfold onChain
  split
  · exact Nat.le_refl _
  · exact Nat.mod_le _ _

theorem length_held (o : Options) (n : Nat) : (o.held n).length = o.onChain (o.kept n).length := by
  have := o.onChain_le (o.kept n).length
  rw [held, List.length_drop]
  omega

/-- The chain is abandoned when it is as long as the window. -/
theorem onChain_succ (o : Options) (m : Nat) : o.onChain (m + 1) =
    if 0 < o.retainWindow ∧ o.retainWindow ≤ o.onChain m + 1 then 0 else o.onChain m + 1 := by
  unfold onChain
  by_cases hw : o.retainWindow = 0
  · rw [if_pos hw, if_pos hw, if_neg fun h => absurd h.1 (by omega)]
  · have hlt := Nat.mod_lt m (Nat.pos_of_ne_zero hw)
    rw [if_neg hw, if_neg hw, ← Nat.mod_add_mod]
    by_cases hfull : m % o.retainWindow + 1 = o.retainWindow
    · rw [if_pos ⟨by omega, hfull.ge⟩, hfull, Nat.mod_self]
    · rw [if_neg fun h => hfull (by omega), Nat.mod_eq_of_lt (by omega)]

theorem held_of_not_keeps (hk : Progress.keeps o n = false) : o.held (n + 1) = o.held n := by
  have hkept : o.kept (n + 1) = o.kept n := by rw [kept_succ, hk]; rfl
  rw [held, hkept, held]

theorem held_of_keeps (hk : Progress.keeps o n = true) : o.held (n + 1) =
    if 0 < o.retainWindow ∧ o.retainWindow ≤ (o.held n).length + 1 then [] else o.held n ++ [n] := by
  have hkept : o.kept (n + 1) = o.kept n ++ [n] := by rw [kept_succ, if_pos hk]
  have hle := o.onChain_le (o.kept n).length
  rw [held, hkept, List.length_append, List.length_singleton, onChain_succ, length_held]
  split
  · exact List.drop_of_length_le (by simp)
  · rw [Nat.add_sub_add_right, List.drop_append_of_le_length (Nat.sub_le _ _), held]

end Options

/-! ## A run that is under way -/

/-- The sample structure and the chain stand, and so many handles have been given out at most. -/
def Progress.Stands (o : Options) (b : Bounds) (left ids : Nat) (p : Progress) : Prop :=
  ∃ R i top d, p.store.Tracks b left R i ∧ p.chain.Stands o.listLength top i ∧
    p.sample = some d ∧ d.Stands i ∧ d.linked = ⟨0⟩ ∧ i.next ≤ ids

/-- A run after so many iterations. -/
structure Underway (o : Options) (b : Bounds) (left n : Nat) (p : Progress) : Prop where
  stands : p.Stands o b left (2 * n + 3)
  iterations : p.chain.iterations.toList = o.held n
  allocated : p.figures.allocated = n
  retained : p.figures.retained = (o.kept n).length

variable {o : Options} {b : Bounds} {left n ids : Nat} {p q : Progress}

/-- A number of the heap has come to its limit during a run. -/
def Progress.Spent (b : Bounds) (p : Progress) : Prop := p.store.Spent b

/-- An action on the store. -/
theorem Action.Yields.onStore {α : Type} {x : Action Store α} {P : α → Store → Prop}
    (h : x.Yields (Store.Spent b) p.store P) :
    (Progress.onStore x).Yields (Progress.Spent b) p fun a q =>
      ∃ s, q = { p with store := s } ∧ P a s := by
  obtain ⟨store, symbols, sample, chain, figures⟩ := p
  rcases h with ⟨a, s, hx, ha⟩ | ⟨s, hx, hs⟩
  · refine Or.inl ⟨a, ⟨s, symbols, sample, chain, figures⟩, ?_, s, rfl, ha⟩
    simp only [Progress.onStore, hx]
  · refine Or.inr ⟨⟨s, symbols, sample, chain, figures⟩, ?_, hs⟩
    simp only [Progress.onStore, hx]

/-- An attempt on the store. -/
theorem EndsWell.attempt {α : Type} {x : Attempt α} {P : α → Store → Prop}
    (h : EndsWell (Store.Spent b) x p.store P) :
    EndsWell (Progress.Spent b) (Progress.attempt x) p fun a q =>
      ∃ s, q = { p with store := s } ∧ P a s := by
  refine Action.Yields.imp h.onStore ?_
  rintro (e | a) q ⟨s, hq, hr⟩
  · exact hr
  · exact ⟨s, hq, hr⟩

/-! ## Iterations -/

/-- Retaining a list ends with a harmless error, or the list is on the chain. -/
theorem endsWell_retain {R : Address → Nat → Prop} {i : Ideal} {top : Option (RootId × Nat)} {d : Sample}
    {list : Address} {m : Nat} (htracks : p.store.Tracks b (left + 1) R i)
    (hchain : p.chain.Stands o.listLength top i) (hsample : p.sample = some d) (hd : d.Stands i)
    (hlinked : d.linked = ⟨0⟩) (hids : i.next ≤ ids) (hmost : ids + 1 ≤ b.ids) (hm : R list m)
    (hlist : i.HasList o.listLength n m) :
    EndsWell (Progress.Spent b) (Progress.retain list n) p fun _ q =>
      q.Stands o b left (ids + 2) ∧ q.chain.iterations = p.chain.iterations.push n ∧
        q.figures = p.figures := by
  refine .step rfl ?_
  refine .bind (.attempt (RetainedLists.endsWell_push htracks hm hchain hlist (by omega))) ?_
  rintro chain _ ⟨s, rfl, R, i', top', ht, he, hchain', hiterations, hnext⟩
  refine .of_ok rfl ⟨⟨R, i', top', d, ht, hchain', hsample, hd.extend he, hlinked, ?_⟩, hiterations, rfl⟩
  omega

/-- The chain is abandoned when it is as long as the window. -/
theorem keepWindow_spec (h : p.Stands o b left ids) :
    ∃ q, (Progress.keepWindow o).run p = .ok (.ok ()) q ∧ q.Stands o b left ids ∧
      q.figures = p.figures ∧
        q.chain.iterations.toList =
          if 0 < o.retainWindow ∧ o.retainWindow ≤ p.chain.iterations.toList.length then []
          else p.chain.iterations.toList := by
  have hrun : (Progress.keepWindow o).run p = _ := Attempt.run_get_bind _ p
  dsimp only at hrun
  have hsize : p.chain.iterations.toList.length = p.chain.size := Array.length_toList
  rw [hrun, hsize]
  obtain ⟨R, i, top, d, htracks, hchain, hsample, hd, hlinked, hnext⟩ := h
  by_cases hfull : o.retainWindow > 0 ∧ p.chain.size ≥ o.retainWindow
  · obtain ⟨i', ht, he, hnext', hnone⟩ := hchain.release (htracks.log (.listsAbandoned p.chain.size) rfl)
    rw [if_pos hfull, if_pos hfull]
    exact ⟨_, rfl, ⟨R, i', none, d, ht, hnone, hsample, hd.extend he, hlinked, hnext'.trans_le hnext⟩,
      rfl, rfl⟩
  · rw [if_neg hfull, if_neg hfull]
    exact ⟨p, rfl, ⟨R, i, top, d, htracks, hchain, hsample, hd, hlinked, hnext⟩, rfl, rfl⟩

/-- **One iteration** ends with a harmless error, or the run has come further. -/
theorem endsWell_iterate (h : Underway o b (left + 1 + o.listLength) n p) (hword : n + 1 < Word.limit)
    (hids : 2 * n + 4 ≤ b.ids) :
    EndsWell (Progress.Spent b) (Progress.iterate o n) p fun _ => Underway o b left (n + 1) := by
  obtain ⟨⟨R, i, top, d, htracks, hchain, hsample, hd, hlinked, hnext⟩, hiterations, hallocated,
    hretained⟩ := h
  refine .bind (.attempt (endsWell_filledList htracks hword)) ?_
  rintro list _ ⟨s, rfl, R, i', m, ht, hm, he, hroots, hnext', hlist⟩
  have hchain' := hchain.extend he hroots hnext'.ge
  have hd' := hd.extend he
  cases hk : Progress.keeps o n with
  | false =>
    refine .of_ok rfl ⟨⟨R, i', top, d, ht.mono (Nat.le_succ _), hchain', hsample, hd', hlinked, ?_⟩,
      ?_, ?_, ?_⟩
    · omega
    · rw [Options.held_of_not_keeps hk]
      exact hiterations
    · exact congrArg (· + 1) hallocated
    · rw [Options.kept_succ, hk]
      exact hretained
  | true =>
    rw [if_pos rfl]
    refine .bind
      (endsWell_retain ht hchain' hsample hd' hlinked (hnext'.trans_le hnext) hids hm hlist) ?_
    rintro _ q ⟨hstands, hpushed, hfigures⟩
    obtain ⟨q', hrun, hstands', hfigures', hwindow⟩ := keepWindow_spec hstands
    refine .step hrun ?_
    have hiterations' : q.chain.iterations.toList = o.held n ++ [n] := by
      rw [hpushed, Array.toList_push]
      exact congrArg (· ++ [n]) hiterations
    rw [hiterations', List.length_append, List.length_singleton] at hwindow
    refine .of_ok rfl ⟨hstands', ?_, ?_, ?_⟩
    · rw [Options.held_of_keeps hk]
      exact hwindow
    · show q'.figures.allocated + 1 = n + 1
      rw [hfigures', hfigures]
      exact congrArg (· + 1) hallocated
    · show q'.figures.retained + 1 = _
      rw [hfigures', hfigures, Options.kept_succ, if_pos hk, List.length_append]
      exact congrArg (· + 1) hretained

/-- **All iterations.** -/
theorem endsWell_churn {remaining : Nat} (h : Underway o b (left + remaining * (o.listLength + 1)) n p)
    (hword : n + remaining < Word.limit) (hids : 2 * (n + remaining) + 2 ≤ b.ids) :
    EndsWell (Progress.Spent b) (Progress.churn o remaining n) p fun _ =>
      Underway o b left (n + remaining) := by
  induction remaining generalizing n p with
  | zero => exact .of_ok rfl (by simpa using h)
  | succ remaining ih =>
    have hsum : n + (remaining + 1) = n + 1 + remaining := by omega
    have hcells : left + (remaining + 1) * (o.listLength + 1) =
        left + remaining * (o.listLength + 1) + 1 + o.listLength := by rw [Nat.succ_mul]; omega
    rw [hsum] at hword hids ⊢
    rw [hcells] at h
    exact .bind (endsWell_iterate h (by omega) (by omega)) fun _ q hq => ih hq hword hids

/-! ## The other phases -/

theorem endsWell_build {R : Address → Nat → Prop} (h : p.store.Tracks b (left + 6) R {})
    (hids : 2 ≤ b.ids) (hempty : p.store.values.entries.size = 0) (hchain : p.chain = {})
    (hfigures : p.figures = {}) :
    EndsWell (Progress.Spent b) Progress.build p fun _ => Underway o (Sample.furnished b) left 0 := by
  refine .step rfl ?_
  refine .bind (.lift (Sample.build_yields h hids hempty p.symbols).onStore) ?_
  rintro ⟨symbols, e | d⟩ _ ⟨s, rfl, hs⟩
  · exact .step rfl (.of_error rfl hs)
  · obtain ⟨R, i, ht, hroots, hnext, hd, hlinked⟩ := hs
    have hstands : RetainedLists.Stands {} o.listLength none i :=
      ⟨rfl, by rw [hroots]; rfl, hnext.ge, fun _ he => (nomatch he), [], rfl, .nil⟩
    refine .step rfl (.of_ok rfl ⟨⟨R, i, none, d, ht, ?_, rfl, hd, hlinked, hnext.le⟩, ?_, ?_, ?_⟩)
    · exact hchain ▸ hstands
    · exact (congrArg (fun chain => chain.iterations.toList) hchain).trans List.drop_nil.symm
    · exact congrArg (·.allocated) hfigures
    · exact congrArg (·.retained) hfigures

/-- **The check** finds everything intact. -/
theorem Underway.check (h : Underway o b left n p) (hout : 0 < b.outside ⟨0⟩)
    (hceiling : b.ceiling ⟨0⟩ ≤ 2) :
    (Progress.check o).run p = .ok (.ok ()) p ∧ p.chain.Held p.store.heap o.listLength ∧
      ∃ d, p.sample = some d ∧ d.verify p.store = .intact := by
  obtain ⟨R, i, top, d, htracks, hchain, hsample, hd, hlinked, -⟩ := h.stands
  have hverified := Sample.verify_eq_intact htracks hd hchain.roots (hlinked ▸ hout) (hlinked ▸ hceiling)
  have hheld := hchain.held htracks.mirrors
  refine ⟨?_, hheld, d, hsample, hverified⟩
  have hrun : (Progress.check o).run p = _ := Attempt.run_get_bind _ p
  dsimp only at hrun
  rw [hrun, hsample, hheld.verify]
  dsimp only
  rw [hverified]
  rfl

/-! ## Whole runs -/

theorem Underway.recordPhase (h : Underway o b left n p) (name : String) :
    Underway o b left n (p.recordPhase name .zero) :=
  ⟨h.stands, h.iterations, h.allocated, h.retained⟩

theorem Options.harmless_of_base {parse : Toml.Parse} {files : Files} {e : RunError}
    (h : o.base parse files = .error e) : e.Harmless := by
  unfold base at h
  split at h
  · cases h
  · split at h
    · cases h
      exact fun _ he => nomatch he
    · split at h
      · cases h
        exact fun _ he => nomatch he
      · cases h

theorem Options.settings_of_base {parse : Toml.Parse} {files : Files} {s : Settings}
    {highWater : Option Nat}
    (h : o.base parse files = .ok (s, highWater)) : o.settings parse files =
      (o.override s highWater).validate.mapError .settings >>= fun _ => .ok (o.override s highWater) := by
  simp only [settings, h, bind, Except.bind]
  cases (o.override s highWater).validate <;> rfl

/-- Settings that are found are refused, or they are valid. -/
theorem Options.settings_cases (o : Options) (parse : Toml.Parse) (files : Files) :
    (∃ e, o.settings parse files = .error e ∧ e.Harmless) ∨
      ∃ s : Settings, o.settings parse files = .ok s ∧ s.Valid := by
  cases hbase : o.base parse files with
  | error e => exact Or.inl ⟨e, by rw [settings, hbase]; rfl, harmless_of_base hbase⟩
  | ok found =>
    obtain ⟨s, highWater⟩ := found
    rw [settings_of_base hbase, Settings.validate]
    cases hreason : (o.override s highWater).inconsistency? with
    | none => exact Or.inr ⟨_, rfl, Settings.inconsistency?_eq_none_iff.1 hreason⟩
    | some reason => exact Or.inl ⟨_, rfl, fun _ he => nomatch he⟩

/-- A run starts with an empty heap, or does not because of the settings. -/
theorem startRun_cases (o : Options) (parse : Toml.Parse) (files : Files) :
    (∃ e, startRun o parse files = .error e ∧ e.Harmless) ∨
      ∃ s, o.settings parse files = .ok s ∧ s.Valid ∧
        startRun o parse files = .ok { store := { heap := .make s 0 } } := by
  rcases o.settings_cases parse files with ⟨e, hs, he⟩ | ⟨s, hs, hvalid⟩
  · refine Or.inl ⟨e, ?_, he⟩
    rw [startRun, hs]
    rfl
  · refine Or.inr ⟨s, hs, hvalid, ?_⟩
    have hmake : Heap.make? s 0 = .ok (.make s 0) := by
      rw [Heap.make?, Settings.validate, Settings.inconsistency?_eq_none_iff.2 hvalid]
    simp only [startRun, hs, bind, Except.bind, hmake]
    rfl

/-- What is known when a run starts: the sample structure takes six cells, and an iteration those of a
    list and a spine cell, and two roots at most. -/
def Options.bounds (o : Options) : Bounds where
  cells := 6 + o.iterations * (o.listLength + 1)
  ids := 2 * o.iterations + 2
  outside _ := 0
  ceiling _ := 0

theorem tracks_start {s : Settings} (hs : s.Valid) (o : Options) :
    Store.Tracks o.bounds (o.iterations * (o.listLength + 1) + 6) { heap := .make s 0 }
      (fun _ _ => False) {} where
  tame := by
    refine ⟨⟨hs, Nat.zero_le _, Nat.zero_le _, rfl, rfl⟩, Heap.clean_make s 0, rfl, ?_⟩
    rintro id ⟨i, entry, name, hi, -⟩
    cases hi
  mirrors := .empty s 0
  covered := Heap.covered_make s 0
  cells := ((Nat.zero_add _).trans (Nat.add_comm _ _)).le
  balanced := ⟨⟨hs, Nat.zero_le _, Nat.zero_le _, rfl, rfl⟩, fun _ => rfl⟩
  count _ := Nat.le_refl _

section Runs

variable {parse : Toml.Parse} {files : Files}

/-- A run comes to the check with this at hand. -/
def Options.ComesToCheck (o : Options) (parse : Toml.Parse) (files : Files) (p : Progress) : Prop :=
  ∃ p₀ p₁ p₂, startRun o parse files = .ok p₀ ∧ Progress.build.run p₀ = .ok (.ok ()) p₁ ∧
    (Progress.churn o o.iterations 0).run (p₁.recordPhase "build" .zero) = .ok (.ok ()) p₂ ∧
      p = p₂.recordPhase "churn" .zero

/-- A run stops with this at hand because a number does not fit. -/
def Options.StopsAt (o : Options) (parse : Toml.Parse) (files : Files) (p : Progress) : Prop :=
  ∃ p₀, startRun o parse files = .ok p₀ ∧
    (Progress.build.run p₀ = .error .additionOverflow p ∨
      ∃ p₁, Progress.build.run p₀ = .ok (.ok ()) p₁ ∧
        (Progress.churn o o.iterations 0).run (p₁.recordPhase "build" .zero) =
          .error .additionOverflow p)

/-- What a run comes to: a harmless error, or the end, where all is counted and held as it should
    be. -/
structure RunOutcome.Sound (o : Options) (parse : Toml.Parse) (files : Files) (outcome : RunOutcome) :
    Prop where
  harmless : ∀ finding, outcome.error ≠ some (.corrupted finding)
  allocated : outcome.error = none → outcome.figures.allocated = o.iterations
  retained : outcome.error = none → outcome.figures.retained =
    if o.retainEvery = 0 then 0 else o.iterations / o.retainEvery
  checked : outcome.error = none → ∃ p, o.ComesToCheck parse files p ∧
    (Progress.check o).run p = .ok (.ok ()) p ∧ outcome = (p.recordPhase "verify" .zero).finish o ∧
      (∃ d, p.sample = some d ∧ d.verify p.store = .intact) ∧
        p.chain.verify p.store.heap o.listLength = .ok .intact ∧
          p.chain.Held p.store.heap o.listLength ∧ p.chain.iterations.toList = o.held o.iterations ∧
            p.store.heap.roots.next ≤ 2 * o.iterations + 3

theorem RunOutcome.Sound.of_error {outcome : RunOutcome} {e : RunError} (h : outcome.error = some e)
    (he : e.Harmless) : outcome.Sound o parse files where
  harmless finding hf := he finding (Option.some.inj (h.symm.trans hf))
  allocated hn := by rw [h] at hn; cases hn
  retained hn := by rw [h] at hn; cases hn
  checked hn := by rw [h] at hn; cases hn

/-- The run ends soundly, or it stops where a number of the heap has come to its limit. -/
def EndsSoundly (o : Options) (parse : Toml.Parse) (files : Files) (r : Except Fault RunOutcome) :
    Prop :=
  (∃ outcome, r = .ok outcome ∧ outcome.Sound o parse files) ∨
    (r = .error .additionOverflow ∧ ∃ q, o.StopsAt parse files q ∧ q.Spent o.bounds)

/-- A phase may end with a harmless error; else the others follow. -/
theorem endsSoundly_cons {phase : Phase} {P : Unit → Progress → Prop}
    (h : EndsWell (Progress.Spent o.bounds) phase p P)
    (hstops : ∀ q, phase.run p = .error .additionOverflow q → o.StopsAt parse files q)
    (name : String) {rest : List (String × Phase)}
    (hok : ∀ q, phase.run p = .ok (.ok ()) q → P () q →
      EndsSoundly o parse files (runPhases o rest (q.recordPhase name .zero))) :
    EndsSoundly o parse files (runPhases o ((name, phase) :: rest) p) := by
  rcases h with ⟨e | _, q, hrun, hq⟩ | ⟨q, hrun, hspent⟩
  · rw [runPhases, hrun]
    exact Or.inl ⟨q.abort e, rfl, .of_error rfl hq⟩
  · rw [runPhases, hrun]
    exact hok q hrun hq
  · rw [runPhases, hrun]
    exact Or.inr ⟨rfl, q, hstops q hrun, hspent⟩

/-- A run that starts ends soundly. -/
theorem endsSoundly_phases {s : Settings} (hs : s.Valid) (hword : o.iterations < Word.limit)
    (hstart : startRun o parse files = .ok { store := { heap := .make s 0 } }) :
    EndsSoundly o parse files (runPhases o (phases o) { store := { heap := .make s 0 } }) := by
  have hbuild := endsWell_build (o := o) (p := { store := { heap := .make s 0 } }) (tracks_start hs o)
    (Nat.le_add_left _ _) rfl rfl rfl
  refine endsSoundly_cons hbuild (fun q hrun => ⟨_, hstart, Or.inl hrun⟩) "build" fun p₁ hrun₁ h₁ => ?_
  have hchurn : EndsWell (Progress.Spent (Sample.furnished o.bounds)) (Progress.churn o o.iterations 0)
      (p₁.recordPhase "build" .zero) fun _ =>
        Underway o (Sample.furnished o.bounds) 0 (0 + o.iterations) := by
    refine endsWell_churn ?_ ?_ ?_
    · rw [Nat.zero_add]
      exact h₁.recordPhase "build"
    · rwa [Nat.zero_add]
    · rw [Nat.zero_add]
      exact Nat.le_refl _
  refine endsSoundly_cons (hchurn.because fun q hq => hq.congr rfl rfl)
    (fun q hrun => ⟨_, hstart, Or.inr ⟨p₁, hrun₁, hrun⟩⟩) "churn" fun p₂ hrun₂ h₂ => ?_
  rw [Nat.zero_add] at h₂
  have h := h₂.recordPhase "churn"
  obtain ⟨hcheck, hheld, hsample⟩ := h.check (by simp [Sample.furnished, Bounds.put])
    (by simp [Sample.furnished, Bounds.put, Options.bounds])
  refine Or.inl ⟨((p₂.recordPhase "churn" .zero).recordPhase "verify" .zero).finish o, ?_, ?_⟩
  · rw [runPhases, hcheck]
    rfl
  · refine ⟨fun finding he => (nomatch he), fun _ => h.allocated, fun _ => ?_, fun _ => ?_⟩
    · refine h.retained.trans ((Options.length_kept o _).trans ?_)
      split
      · rename_i hnone
        rw [hnone, Nat.div_zero]
      · rfl
    · obtain ⟨R, i, top, d, htracks, -, -, -, -, hnext⟩ := h.stands
      exact ⟨_, ⟨_, p₁, p₂, hstart, hrun₁, hrun₂, rfl⟩, hcheck, rfl, hsample, hheld.verify, hheld,
        h.iterations, htracks.mirrors.next.trans_le hnext⟩

theorem endsSoundly_run (parse : Toml.Parse) (files : Files) (hword : o.iterations < Word.limit) :
    EndsSoundly o parse files (run o parse files) := by
  rcases startRun_cases o parse files with ⟨e, hstart, he⟩ | ⟨s, -, hs, hstart⟩
  · refine Or.inl ⟨{ error := some e }, ?_, .of_error rfl he⟩
    rw [run, hstart]
  · rw [run, hstart]
    exact endsSoundly_phases hs hword hstart

/-- Few enough iterations do not bring a number of the heap to its limit. -/
theorem run_sound (parse : Toml.Parse) (files : Files) (hiterations : 2 * o.iterations + 3 < Word.limit)
    (hcells : 2 * (6 + o.iterations * (o.listLength + 1)) < Word.limit) :
    ∃ outcome, run o parse files = .ok outcome ∧ outcome.Sound o parse files := by
  refine (endsSoundly_run parse files (by omega)).resolve_right ?_
  rintro ⟨-, q, -, ⟨-, hlimit, hmost⟩ | ⟨hlimit, hmost⟩⟩
  · have hmost' : q.store.heap.accounted ≤ 6 + o.iterations * (o.listLength + 1) := hmost
    omega
  · have hmost' : q.store.heap.roots.next ≤ 2 * o.iterations + 2 := hmost
    omega

end Runs

end Tenure
