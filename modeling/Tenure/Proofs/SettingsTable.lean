/-
  Tenure — settings read from a document.

  A document gives values for some fields of settings.  It is read key by key, and the key of the old
  capacity moves the mark too, which has a key of its own.  Still the outcome is the same in any
  order, because a mark that is given is put in its place at the end.

  * `Toml.Value.ofText?_distinct`: the keys of a document are distinct.
  * `Field`: the fields of settings, with their keys and the values that they admit.
  * `Given`: values for some of the fields; `Given.settings`: the settings that they stand for;
    `Given.orElse`: values in front of others.
  * `given`: the values that a table gives; `given_perm`: they do not depend on its order.
  * `Acceptable`, `refusal`: the entries that can be taken over, and the error for the others.
  * `takeAll_draft`: what has been read after some acceptable entries.
  * `ofEntries_exact`: the settings that come of a table, or the error.
-/
import Mathlib.Data.List.Nodup
import Mathlib.Data.Option.Basic
import Tenure.Settings.Document

namespace Tenure

namespace Toml

/-! ## Keys of a document -/

theorem Value.dateUnderKey?_ne_table {written : Written} {found : List (String × Value)} :
    dateUnderKey? written ≠ some (.table found) := by
  unfold dateUnderKey?
  split
  · split <;> simp
  · simp

namespace Assembly

variable {fuel : Nat} {a a' : Assembly} {c : Cursor} {seen : List String}
  {found : List (String × Value)}

/-- Entries are none, or one with a new key and those that follow it. -/
theorem entries_cases (h : entries (fuel + 1) a c seen = some (found, a')) :
    found = [] ∨ ∃ key value rest a₁ c₁, found = (key, value) :: rest ∧ key ∉ seen ∧
      entries fuel a₁ c₁ (key :: seen) = some (rest, a') := by
  rw [entries] at h
  split at h
  · cases h
    exact Or.inl rfl
  · obtain ⟨⟨a₁, c₁, first⟩, -, h⟩ := Option.bind_eq_some_iff.1 h
    cases first with
    | none =>
      cases h
      exact Or.inl rfl
    | some first =>
      obtain ⟨key, written⟩ := first
      obtain ⟨⟨⟩, hnew, h⟩ := Option.bind_eq_some_iff.1 h
      have hkey : key ∉ seen := by simpa [guard] using hnew
      refine Or.inr ?_
      cases written with
      | none =>
        obtain ⟨⟨value, a₂⟩, -, h⟩ := Option.bind_eq_some_iff.1 h
        obtain ⟨⟨_, _, _⟩, ⟨⟩, h⟩ := Option.bind_eq_some_iff.1 h
        obtain ⟨⟨rest, a₃⟩, hrest, h⟩ := Option.bind_eq_some_iff.1 h
        cases h
        exact ⟨key, value, rest, _, _, rfl, hkey, hrest⟩
      | some written =>
        obtain ⟨value, -, h⟩ := Option.bind_eq_some_iff.1 h
        obtain ⟨⟨_, _, _⟩, ⟨⟩, h⟩ := Option.bind_eq_some_iff.1 h
        obtain ⟨⟨rest, a₃⟩, hrest, h⟩ := Option.bind_eq_some_iff.1 h
        cases h
        exact ⟨key, value, rest, _, _, rfl, hkey, hrest⟩

/-- The keys of a table are distinct, and none is among those seen before. -/
theorem entries_distinct (h : entries fuel a c seen = some (found, a')) :
    (found.map Prod.fst).Nodup ∧ ∀ key ∈ found.map Prod.fst, key ∉ seen := by
  -- `seen` grows by each key that is found, so what comes later avoids it
  induction fuel generalizing a c seen found with
  | zero => simp [entries] at h
  | succ fuel ih =>
    rcases entries_cases h with rfl | ⟨key, value, rest, a₁, c₁, rfl, hkey, hrest⟩
    · simp
    · obtain ⟨hdistinct, hseen⟩ := ih hrest
      simp only [List.map_cons, List.nodup_cons, List.forall_mem_cons]
      refine ⟨⟨fun hmem => hseen key hmem List.mem_cons_self, hdistinct⟩, hkey, ?_⟩
      intro key' hmem hmem'
      exact hseen key' hmem (List.mem_cons_of_mem _ hmem')

theorem table_distinct (h : table fuel a c = some (.table found, a')) :
    (found.map Prod.fst).Nodup := by
  cases fuel with
  | zero => simp [table] at h
  | succ fuel =>
    rw [table] at h
    split at h
    · cases h
      simp
    · obtain ⟨⟨a₁, c₁, first⟩, -, h⟩ := Option.bind_eq_some_iff.1 h
      cases first with
      | none =>
        cases h
        simp
      | some first =>
        obtain ⟨key, written⟩ := first
        dsimp only at h
        split at h
        · obtain ⟨date, hdate, h⟩ := Option.bind_eq_some_iff.1 h
          cases h
          obtain ⟨w, -, hw⟩ := Option.bind_eq_some_iff.1 hdate
          exact absurd hw Value.dateUnderKey?_ne_table
        · obtain ⟨⟨entries, a₂⟩, hentries, h⟩ := Option.bind_eq_some_iff.1 h
          cases h
          exact (entries_distinct hentries).1

end Assembly

namespace Value

/-- **The keys of a document** are distinct. -/
theorem ofText?_distinct : Parse.DistinctKeys ofText? := by
  intro text found h
  unfold ofText? at h
  obtain ⟨sections, -, h⟩ := Option.bind_eq_some_iff.1 h
  obtain ⟨⟨value, a⟩, htable, h⟩ := Option.bind_eq_some_iff.1 h
  cases h
  exact Assembly.table_distinct htable

/-- The number, if the value is a whole number that is not negative. -/
def natural? : Value → Option Nat
  | .integer (.ofNat n) => some n
  | _ => none

theorem natural?_eq_some_iff {value : Value} {n : Nat} :
    value.natural? = some n ↔ value = .integer n := by
  constructor
  · intro h
    unfold natural? at h
    split at h
    · cases h
      rfl
    · cases h
  · rintro rfl
    rfl

end Value

end Toml

namespace Settings

open Toml

/-! ## Given values -/

/-- The fields of settings. -/
inductive Field
  | youngCapacity
  | oldCapacity
  | oldHighWater
  | promotionThreshold
  deriving DecidableEq, Repr

namespace Field

/-- All fields. -/
def all : List Field := [.youngCapacity, .oldCapacity, .oldHighWater, .promotionThreshold]

/-- The key under which a table gives the field. -/
def key : Field → String
  | .youngCapacity => "young_capacity"
  | .oldCapacity => "old_capacity"
  | .oldHighWater => "old_high_water"
  | .promotionThreshold => "promotion_threshold"

/-- The values that a table may give: any count, but for the threshold one that fits in a byte. -/
def Admits : Field → Nat → Prop
  | .promotionThreshold, n => n ≤ 255
  | _, _ => True

theorem key_injective : Function.Injective key := by
  intro f f' h
  cases f <;> cases f' <;> first | rfl | exact absurd h (by decide)

end Field

/-- Values for some of the fields. -/
abbrev Given := Field → Option Nat

namespace Given

/-- No value. -/
def nothing : Given := fun _ => none

/-- One value. -/
def only (f : Field) (n : Nat) : Given := fun f' => if f' = f then some n else none

/-- Values in front of others, which count where there is none. -/
def orElse (g g' : Given) : Given := fun f => (g f).or (g' f)

/-- The settings that given values stand for.  What is not given is standard, but for the mark, which
    follows a capacity that is given. -/
def settings (g : Given) : Settings where
  youngCapacity := (g .youngCapacity).getD standard.youngCapacity
  oldCapacity := (g .oldCapacity).getD standard.oldCapacity
  oldHighWater := ((g .oldHighWater).or ((g .oldCapacity).map markFor)).getD standard.oldHighWater
  promotionThreshold := (g .promotionThreshold).getD standard.promotionThreshold

/-- What has been read when these values were given: the mark has not been put in its place. -/
def draft (g : Given) : Draft where
  settings := settings fun f => if f = .oldHighWater then none else g f
  highWater := g .oldHighWater

variable {g g' g'' : Given} {f : Field} {n : Nat}

@[simp] theorem orElse_nothing : g.orElse nothing = g := by
  ext f
  simp [orElse, nothing]

theorem orElse_assoc : (g.orElse g').orElse g'' = g.orElse (g'.orElse g'') := by
  ext f
  simp [orElse, Option.or_assoc]

/-- A value for a field that the others leave out may as well stand behind them. -/
theorem only_orElse (h : g f = none) : (only f n).orElse g = g.orElse (only f n) := by
  funext f'
  by_cases hf : f' = f
  · subst hf
    simp [orElse, only, h]
  · simp [orElse, only, hf]

theorem draft_nothing : nothing.draft = {} := rfl

/-- Putting the mark in its place completes the settings. -/
theorem finish_draft (g : Given) :
    g.draft.finish = g.settings.validate.map fun _ => (g.settings, g .oldHighWater) := by
  have hplace : g.draft.finish =
      g.settings.validate >>= fun _ => .ok (g.settings, g .oldHighWater) := by
    unfold Draft.finish settings draft
    cases g .oldHighWater <;> rfl
  rw [hplace]
  cases g.settings.validate <;> rfl

end Given

/-! ## Entries -/

/-- The values that a table gives. -/
def given (entries : List (String × Value)) : Given :=
  fun f => (entries.lookup f.key).bind (·.natural?)

/-- An entry that can be taken over: its key is that of a field, which admits its value. -/
def Acceptable (entry : String × Value) : Prop :=
  ∃ (f : Field) (n : Nat), entry = (f.key, .integer n) ∧ f.Admits n

/-- The error for an entry that cannot be taken over. -/
def refusal (key : String) : SettingsError :=
  if key ∈ Field.all.map Field.key then .badValue key else .unknownKey key

variable {entries entries' : List (String × Value)} {d : Draft} {g : Given} {f : Field} {n : Nat}
  {key : String} {value : Value}

theorem validate_eq_error_iff {s : Settings} {e : SettingsError} :
    s.validate = .error e ↔ ∃ reason, s.inconsistency? = some reason ∧ e = .invalid reason := by
  rw [validate]
  cases s.inconsistency? <;> simp [eq_comm]

/-- Under distinct keys the given values are those of the entries. -/
theorem given_eq_some_iff (hdistinct : (entries.map Prod.fst).Nodup) :
    given entries f = some n ↔ (f.key, .integer n) ∈ entries := by
  induction entries with
  | nil => simp [given]
  | cons entry rest ih =>
    obtain ⟨key, value⟩ := entry
    obtain ⟨hnew, hrest⟩ := List.nodup_cons.1 hdistinct
    by_cases hk : f.key = key
    · subst hk
      have hnone : (f.key, Value.integer n) ∉ rest :=
        fun h => hnew (List.mem_map.2 ⟨_, h, rfl⟩)
      simp [given, hnone, Value.natural?_eq_some_iff, eq_comm (a := value)]
    · have hne : (f.key == key) = false := beq_eq_false_iff_ne.2 hk
      have hskip : given ((key, value) :: rest) f = given rest f := by
        simp [given, List.lookup_cons, hne]
      rw [hskip, ih hrest]
      simp [hk]

/-- The values that a table gives do not depend on the order of its entries. -/
theorem given_perm (hdistinct : (entries.map Prod.fst).Nodup) (h : entries.Perm entries') :
    given entries = given entries' := by
  have hdistinct' : (entries'.map Prod.fst).Nodup := (h.map _).nodup hdistinct
  ext f n
  rw [given_eq_some_iff hdistinct, given_eq_some_iff hdistinct', h.mem_iff]

theorem given_cons (f : Field) (n : Nat) (rest : List (String × Value)) :
    given ((f.key, .integer n) :: rest) = (Given.only f n).orElse (given rest) := by
  ext f' m
  by_cases hf : f' = f
  · subst hf
    simp [given, Given.orElse, Given.only, Toml.Value.natural?]
  · have hne : (f'.key == f.key) = false := beq_eq_false_iff_ne.2 (Field.key_injective.ne hf)
    simp [given, List.lookup_cons, hne, Given.orElse, Given.only, hf]

theorem given_eq_none (h : f.key ∉ entries.map Prod.fst) : given entries f = none := by
  have hnone : entries.lookup f.key = none := by
    rw [List.lookup_eq_none_iff]
    intro e he
    have hne : f.key ≠ e.1 := fun hk => h (hk ▸ List.mem_map_of_mem he)
    simpa using hne
  rw [given, hnone, Option.bind_none]

/-! ## Reading -/

theorem count_eq (key : String) (value : Value) :
    count key value = value.natural?.elim (.error (.badValue key)) .ok := by
  unfold count
  cases value with
  | integer n => cases n <;> rfl
  | _ => rfl

/-- **One acceptable entry** adds its value to those that have been read. -/
theorem take_draft (h : f.Admits n) :
    g.draft.take f.key (.integer n) = .ok ((Given.only f n).orElse g).draft := by
  cases f with
  | promotionThreshold =>
    have hn : n < 256 := Nat.lt_succ_of_le h
    simp only [Draft.take, Field.key, count_eq]
    exact if_pos hn
  | _ =>
    simp only [Draft.take, Field.key, count_eq]
    rfl

/-- A value is no count if it is not acceptable under the key of a field that admits every count. -/
theorem natural?_eq_none (h : ¬ Acceptable (f.key, value)) (hall : ∀ n, f.Admits n) :
    value.natural? = none := by
  rw [Option.eq_none_iff_forall_ne_some]
  intro n hn
  rw [Value.natural?_eq_some_iff] at hn
  exact h ⟨f, n, by rw [hn], hall n⟩

/-- **An entry that is not acceptable** ends the reading, with the error that names its key. -/
theorem take_refused (h : ¬ Acceptable (key, value)) : d.take key value = .error (refusal key) := by
  unfold Draft.take
  split
  · rw [count_eq, natural?_eq_none (f := .youngCapacity) h fun _ => trivial]
    rfl
  · rw [count_eq, natural?_eq_none (f := .oldCapacity) h fun _ => trivial]
    rfl
  · rw [count_eq, natural?_eq_none (f := .oldHighWater) h fun _ => trivial]
    rfl
  · rw [count_eq]
    cases hn : value.natural? with
    | none => rfl
    | some n =>
      rw [Value.natural?_eq_some_iff] at hn
      refine if_neg fun hlt => h ⟨.promotionThreshold, n, by rw [hn]; rfl, Nat.le_of_lt_succ hlt⟩
  · rename_i hyoung hold hmark hthreshold
    refine congrArg Except.error (Eq.symm (if_neg ?_))
    simp only [Field.all, Field.key, List.map_cons, List.map_nil, List.mem_cons, List.not_mem_nil]
    rintro (h | h | h | h | h)
    exacts [hyoung h, hold h, hmark h, hthreshold h, h]

/-- Takes over one entry after the other. -/
def Draft.takeAll (d : Draft) (entries : List (String × Value)) : Except SettingsError Draft :=
  entries.foldlM (fun d e => d.take e.1 e.2) d

theorem Draft.takeAll_cons (d : Draft) (entry : String × Value) (rest : List (String × Value)) :
    d.takeAll (entry :: rest) = d.take entry.1 entry.2 >>= (·.takeAll rest) :=
  List.foldlM_cons

theorem Draft.takeAll_append (d : Draft) (entries entries' : List (String × Value)) :
    d.takeAll (entries ++ entries') = d.takeAll entries >>= (·.takeAll entries') :=
  List.foldlM_append

theorem ofEntries_eq (entries : List (String × Value)) :
    ofEntries entries = Draft.takeAll {} entries >>= Draft.finish := rfl

/-- **Acceptable entries** under distinct keys add their values to those that have been read. -/
theorem takeAll_draft (hdistinct : (entries.map Prod.fst).Nodup) (h : ∀ e ∈ entries, Acceptable e) :
    g.draft.takeAll entries = .ok ((given entries).orElse g).draft := by
  -- the later entries find the value of the first one among what has been read; as its key does not
  -- come again, it may as well stand in front of them
  induction entries generalizing g with
  | nil => rfl
  | cons entry rest ih =>
    obtain ⟨hnew, hrest⟩ := List.nodup_cons.1 hdistinct
    obtain ⟨f, n, rfl, hadmits⟩ := h entry List.mem_cons_self
    have hothers : ∀ e ∈ rest, Acceptable e := fun e he => h e (List.mem_cons_of_mem _ he)
    calc g.draft.takeAll ((f.key, .integer n) :: rest)
        = ((Given.only f n).orElse g).draft.takeAll rest := by
          rw [Draft.takeAll_cons, take_draft hadmits]
          rfl
      _ = .ok ((given rest).orElse ((Given.only f n).orElse g)).draft := ih hrest hothers
      _ = .ok ((given ((f.key, .integer n) :: rest)).orElse g).draft := by
          rw [given_cons, Given.only_orElse (given_eq_none hnew), Given.orElse_assoc]

/-- A table with acceptable entries only stands for settings, if these are consistent. -/
theorem ofEntries_of_acceptable (hdistinct : (entries.map Prod.fst).Nodup)
    (h : ∀ e ∈ entries, Acceptable e) : ofEntries entries =
      (given entries).settings.validate.map fun _ =>
        ((given entries).settings, given entries .oldHighWater) := by
  have hread := takeAll_draft (g := .nothing) hdistinct h
  rw [Given.draft_nothing, Given.orElse_nothing] at hread
  rw [ofEntries_eq, hread, ← Given.finish_draft]
  rfl

/-- The key of the first entry that cannot be taken over. -/
def FirstRefused (entries : List (String × Value)) (key : String) : Prop :=
  ∃ before value after, entries = before ++ (key, value) :: after ∧
    (∀ e ∈ before, Acceptable e) ∧ ¬ Acceptable (key, value)

theorem exists_firstRefused (h : ¬ ∀ e ∈ entries, Acceptable e) : ∃ key, FirstRefused entries key := by
  induction entries with
  | nil => simp at h
  | cons entry rest ih =>
    by_cases hentry : Acceptable entry
    · have hrest : ¬ ∀ e ∈ rest, Acceptable e := by simpa [hentry] using h
      obtain ⟨key, before, value, after, rfl, hbefore, hbad⟩ := ih hrest
      refine ⟨key, entry :: before, value, after, rfl, ?_, hbad⟩
      simpa [hentry] using hbefore
    · exact ⟨entry.1, [], entry.2, rest, rfl, by simp, hentry⟩

/-- **The first entry that cannot be taken over** decides. -/
theorem FirstRefused.ofEntries (hdistinct : (entries.map Prod.fst).Nodup)
    (h : FirstRefused entries key) : ofEntries entries = .error (refusal key) := by
  obtain ⟨before, value, after, rfl, hbefore, hbad⟩ := h
  rw [List.map_append] at hdistinct
  have hread := takeAll_draft (g := .nothing) hdistinct.of_append_left hbefore
  rw [Given.draft_nothing] at hread
  rw [ofEntries_eq, Draft.takeAll_append, hread]
  show Draft.takeAll _ _ >>= Draft.finish = _
  rw [Draft.takeAll_cons, take_refused hbad]
  rfl

theorem ofEntries_eq_ok_iff (hdistinct : (entries.map Prod.fst).Nodup)
    {found : Settings × Option Nat} : ofEntries entries = .ok found ↔
      (∀ e ∈ entries, Acceptable e) ∧ (given entries).settings.validate = .ok () ∧
        found = ((given entries).settings, given entries .oldHighWater) := by
  by_cases h : ∀ e ∈ entries, Acceptable e
  · rw [ofEntries_of_acceptable hdistinct h, and_iff_right h]
    cases (given entries).settings.validate <;> simp [Except.map, eq_comm]
  · obtain ⟨key, hkey⟩ := exists_firstRefused h
    rw [hkey.ofEntries hdistinct]
    constructor
    · rintro ⟨⟩
    · rintro ⟨h', -⟩
      exact absurd h' h

theorem ofEntries_eq_error_iff (hdistinct : (entries.map Prod.fst).Nodup) {error : SettingsError} :
    ofEntries entries = .error error ↔
      (∃ key, FirstRefused entries key ∧ error = refusal key) ∨
        (∀ e ∈ entries, Acceptable e) ∧
          ∃ reason, (given entries).settings.inconsistency? = some reason ∧
            error = .invalid reason := by
  constructor
  · intro herror
    by_cases h : ∀ e ∈ entries, Acceptable e
    · rw [ofEntries_of_acceptable hdistinct h] at herror
      refine Or.inr ⟨h, validate_eq_error_iff.1 ?_⟩
      cases hv : (given entries).settings.validate <;> rw [hv] at herror <;> cases herror
      rfl
    · obtain ⟨key, hkey⟩ := exists_firstRefused h
      rw [hkey.ofEntries hdistinct] at herror
      cases herror
      exact Or.inl ⟨key, hkey, rfl⟩
  · rintro (⟨key, hkey, rfl⟩ | ⟨h, hreason⟩)
    · exact hkey.ofEntries hdistinct
    · rw [ofEntries_of_acceptable hdistinct h, validate_eq_error_iff.2 hreason]
      rfl

theorem ofEntries_perm (hdistinct : (entries.map Prod.fst).Nodup) (h : entries.Perm entries')
    {found : Settings × Option Nat} : ofEntries entries' = .ok found ↔ ofEntries entries = .ok found := by
  have hdistinct' : (entries'.map Prod.fst).Nodup := (h.map _).nodup hdistinct
  rw [ofEntries_eq_ok_iff hdistinct', ofEntries_eq_ok_iff hdistinct, given_perm hdistinct h]
  simp only [h.mem_iff]

theorem ofText_of_table {parse : Parse} {text : String} (h : parse text = some (.table entries)) :
    ofText parse text = ofEntries entries := by
  rw [ofText, h]

/-- Settings that are read from a document come from a table. -/
theorem table_of_ofText {parse : Parse} {text : String} {found : Settings × Option Nat}
    (h : ofText parse text = .ok found) : ∃ entries, parse text = some (.table entries) := by
  unfold ofText at h
  split at h
  · cases h
  · rename_i entries htable
    exact ⟨entries, htable⟩
  · cases h

/-- **Settings read from a table.**  They are those that its values stand for, in whatever order it has
    them, if every entry can be taken over and the settings are consistent.  Else the error names the
    first key that cannot be taken over, and only if there is none, what is inconsistent. -/
theorem ofEntries_exact (hdistinct : (entries.map Prod.fst).Nodup) :
    (∀ found, ofEntries entries = .ok found ↔
      (∀ e ∈ entries, Acceptable e) ∧ (given entries).settings.validate = .ok () ∧
        found = ((given entries).settings, given entries .oldHighWater)) ∧
    (∀ entries', entries.Perm entries' →
      ∀ found, ofEntries entries' = .ok found ↔ ofEntries entries = .ok found) ∧
    (∀ error, ofEntries entries = .error error ↔
      (∃ key, FirstRefused entries key ∧ error = refusal key) ∨
        (∀ e ∈ entries, Acceptable e) ∧
          ∃ reason, (given entries).settings.inconsistency? = some reason ∧
            error = .invalid reason) ∧
    ∀ (parse : Parse) text, parse text = some (.table entries) →
      ofText parse text = ofEntries entries := by
  refine ⟨?_, ?_, ?_, ?_⟩
  · intro found
    exact ofEntries_eq_ok_iff hdistinct
  · intro entries' hperm found
    exact ofEntries_perm hdistinct hperm
  · intro error
    exact ofEntries_eq_error_iff hdistinct
  · intro parse text
    exact ofText_of_table

/-- A table that gives the mark before the capacity that moves it. -/
def crossed : List (String × Value) :=
  [("old_high_water", .integer 150), ("old_capacity", .integer 200), ("young_capacity", .integer 64),
    ("promotion_threshold", .integer 3)]

theorem acceptable_crossed : ∀ e ∈ crossed, Acceptable e := by
  simp only [crossed, List.forall_mem_cons]
  exact ⟨⟨.oldHighWater, 150, rfl, trivial⟩, ⟨.oldCapacity, 200, rfl, trivial⟩,
    ⟨.youngCapacity, 64, rfl, trivial⟩, ⟨.promotionThreshold, 3, rfl, (by decide : 3 ≤ 255)⟩, by simp⟩

/-- A table with two entries that cannot be taken over. -/
def spoilt : List (String × Value) :=
  [("old_capacity", .integer 5), ("young_capacity", .integer (-1)), ("nursery", .float)]

theorem firstRefused_spoilt : FirstRefused spoilt "young_capacity" := by
  refine ⟨[("old_capacity", .integer 5)], .integer (-1), [("nursery", .float)], rfl, ?_, ?_⟩
  · simp only [List.forall_mem_singleton]
    exact ⟨.oldCapacity, 5, rfl, trivial⟩
  · rintro ⟨f, n, h, -⟩
    injection h with _ h
    injection h with h
    omega

theorem ofEntries_exact_crossed : (crossed.map Prod.fst).Nodup ∧ (spoilt.map Prod.fst).Nodup ∧
    ofEntries crossed = .ok (⟨64, 200, 150, 3⟩, some 150) ∧
    ofEntries crossed.reverse = .ok (⟨64, 200, 150, 3⟩, some 150) ∧
    ofEntries spoilt = .error (.badValue "young_capacity") := by
  have hcrossed : (crossed.map Prod.fst).Nodup := by decide
  have hspoilt : (spoilt.map Prod.fst).Nodup := by decide
  obtain ⟨hok, hperm, -⟩ := ofEntries_exact hcrossed
  obtain ⟨-, -, herror, -⟩ := ofEntries_exact hspoilt
  have hfound := (hok (⟨64, 200, 150, 3⟩, some 150)).2 ⟨acceptable_crossed, by decide, by decide⟩
  refine ⟨hcrossed, hspoilt, hfound, ?_, ?_⟩
  · exact (hperm _ (List.reverse_perm _).symm _).2 hfound
  · exact (herror _).2 (Or.inl ⟨_, firstRefused_spoilt, rfl⟩)

end Settings

end Tenure
