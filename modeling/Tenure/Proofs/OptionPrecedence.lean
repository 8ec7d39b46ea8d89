/-
  Tenure — options before the file, and the file before the standard.

  The settings of a run are those that the values of the options stand for, in front of the values in
  the file.  So a mark that is given, here or there, outlasts an option for the capacity.  But the
  file is also judged on its own: what its values and the standard stand for has to be consistent,
  even where an option would replace a value.

  * `Options.HasTable`: the table in the file that the options name.
  * `Options.given`: the values that the options give; `override_settings`: they stand in front.
  * `settings_of_table`: the settings of a run whose file has acceptable entries only.
  * `settings_precedence`: where each field of the settings of a run comes from.
  * `settings_accepted_iff`: when there are settings, and when the file alone is refused.
-/
import Tenure.Proofs.SettingsTable
import Tenure.Workload.Options

namespace Tenure

open Toml Settings

/-- One file with a text, under every path. -/
def Files.holding (text : String) : Files := fun _ => .ok text.toUTF8

theorem Files.text_holding (text path : String) : (holding text).text path = .ok text := by
  have hread : String.fromUTF8? text.toUTF8 = some text := dif_pos text.isValidUTF8
  unfold Files.text holding
  simp only [bind, Except.bind, hread]
  rfl

namespace Options

variable {o : Options} {parse : Parse} {files : Files} {entries : List (String × Value)} {s : Settings}

/-! ## The two sources -/

/-- The table in the file that the options name; if they name none, no entry is given. -/
def HasTable (o : Options) (parse : Parse) (files : Files) (entries : List (String × Value)) : Prop :=
  match o.config with
  | none => entries = []
  | some path => ∃ text, files.text path = .ok text ∧ parse text = some (.table entries)

/-- The values that the options give. -/
def given (o : Options) : Given
  | .youngCapacity => o.youngCapacity
  | .oldCapacity => o.oldCapacity
  | .oldHighWater => o.oldHighWater
  | .promotionThreshold => o.promotionThreshold

/-- The settings that the values of the options stand for, in front of those in a table. -/
def merged (o : Options) (entries : List (String × Value)) : Settings :=
  (o.given.orElse (Settings.given entries)).settings

/-- **Options override** what was given before. -/
theorem override_settings (o : Options) (g : Given) :
    o.override g.settings (g .oldHighWater) = (o.given.orElse g).settings := by
  -- a mark that is given is put in its place after an option for the capacity has moved it
  unfold override Given.settings Given.orElse given
  cases o.youngCapacity <;> cases o.oldCapacity <;> cases o.oldHighWater <;>
    cases o.promotionThreshold <;> cases g .oldHighWater <;> rfl

theorem HasTable.distinct (h : o.HasTable parse files entries) (hparse : parse.DistinctKeys) :
    (entries.map Prod.fst).Nodup := by
  unfold HasTable at h
  split at h
  · rw [h]
    exact List.nodup_nil
  · obtain ⟨text, -, htable⟩ := h
    exact hparse text entries htable

theorem HasTable.base (h : o.HasTable parse files entries) :
    o.base parse files = (ofEntries entries).mapError .settings := by
  unfold HasTable at h
  unfold Options.base
  cases hconfig : o.config with
  | none =>
    simp only [hconfig] at h
    rw [h]
    rfl
  | some path =>
    simp only [hconfig] at h
    obtain ⟨text, htext, htable⟩ := h
    simp only [htext, ofText_of_table htable]
    cases ofEntries entries <;> rfl

theorem hasTable_holding {path text : String} (hconfig : o.config = some path)
    (htable : parse text = some (.table entries)) : o.HasTable parse (.holding text) entries := by
  rw [HasTable, hconfig]
  exact ⟨text, Files.text_holding text path, htable⟩

/-- Settings that are found come from a table. -/
theorem exists_table {found : Settings × Option Nat} (h : o.base parse files = .ok found) :
    ∃ entries, o.HasTable parse files entries := by
  unfold Options.base at h
  unfold HasTable
  cases hconfig : o.config with
  | none => exact ⟨[], rfl⟩
  | some path =>
    simp only [hconfig] at h
    cases htext : files.text path with
    | error e =>
      rw [htext] at h
      cases h
    | ok text =>
      simp only [htext] at h
      cases hfound : ofText parse text with
      | error e =>
        rw [hfound] at h
        cases h
      | ok found =>
        obtain ⟨entries, htable⟩ := table_of_ofText hfound
        exact ⟨entries, text, htext, htable⟩

/-! ## The settings of a run -/

/-- **The settings of a run** whose file has acceptable entries only: the file alone is judged, and
    then the values of the options and of the file together. -/
theorem settings_of_table (hparse : parse.DistinctKeys) (htable : o.HasTable parse files entries)
    (h : ∀ e ∈ entries, Acceptable e) : o.settings parse files =
    ((Settings.given entries).settings.validate >>= fun _ =>
      (o.merged entries).validate.map fun _ => o.merged entries).mapError .settings := by
  have hbase : o.base parse files =
      ((Settings.given entries).settings.validate.map fun _ =>
        ((Settings.given entries).settings, Settings.given entries .oldHighWater)).mapError
          .settings := by
    rw [htable.base, ofEntries_of_acceptable (htable.distinct hparse) h]
  rw [Options.settings, hbase, merged, ← override_settings]
  cases (Settings.given entries).settings.validate with
  | error e => rfl
  | ok _ =>
    simp only [Except.map, Except.mapError, bind, Except.bind]
    cases (o.override _ _).validate <;> rfl

theorem settings_eq_ok_iff (hparse : parse.DistinctKeys) (htable : o.HasTable parse files entries)
    (h : ∀ e ∈ entries, Acceptable e) : o.settings parse files = .ok s ↔ s = o.merged entries ∧
      s.validate = .ok () ∧
      (Settings.given entries).settings.validate = .ok () := by
  rw [settings_of_table hparse htable h]
  constructor
  · intro hs
    cases hfile : (Settings.given entries).settings.validate with
    | error e => simp [hfile, bind, Except.bind, Except.mapError] at hs
    | ok _ =>
      cases hv : (o.merged entries).validate with
      | error e => simp [hfile, hv, bind, Except.bind, Except.map, Except.mapError] at hs
      | ok _ =>
        rw [hfile, hv] at hs
        cases hs
        exact ⟨rfl, hv, rfl⟩
  · rintro ⟨rfl, hv, hfile⟩
    rw [hfile, hv]
    rfl

/-- Settings that are found come from a table with acceptable entries. -/
theorem exists_acceptable (hparse : parse.DistinctKeys) (h : o.settings parse files = .ok s) :
    ∃ entries, o.HasTable parse files entries ∧ ∀ e ∈ entries, Acceptable e := by
  cases hbase : o.base parse files with
  | error e =>
    rw [Options.settings, hbase] at h
    cases h
  | ok found =>
    obtain ⟨entries, htable⟩ := exists_table hbase
    refine ⟨entries, htable, ?_⟩
    rw [htable.base] at hbase
    cases hentries : ofEntries entries with
    | error e =>
      rw [hentries] at hbase
      cases hbase
    | ok found => exact ((ofEntries_eq_ok_iff (htable.distinct hparse)).1 hentries).1

/-- **Where the settings of a run come from**: from an option, else from the file, else from the
    standard.  The mark comes from an option, else from the file, else it follows the old capacity
    if that one comes from an option or from the file. -/
theorem settings_precedence (hparse : parse.DistinctKeys) (h : o.settings parse files = .ok s) :
    ∃ entries, o.HasTable parse files entries ∧ (∀ e ∈ entries, Acceptable e) ∧ s.validate = .ok () ∧
      s.youngCapacity = (o.youngCapacity.or (Settings.given entries .youngCapacity)).getD
        standard.youngCapacity ∧
      s.oldCapacity = (o.oldCapacity.or (Settings.given entries .oldCapacity)).getD
        standard.oldCapacity ∧
      s.promotionThreshold =
        (o.promotionThreshold.or (Settings.given entries .promotionThreshold)).getD
          standard.promotionThreshold ∧
      s.oldHighWater = ((o.oldHighWater.or (Settings.given entries .oldHighWater)).or
        ((o.oldCapacity.or (Settings.given entries .oldCapacity)).map markFor)).getD
          standard.oldHighWater := by
  obtain ⟨entries, htable, hentries⟩ := exists_acceptable hparse h
  obtain ⟨rfl, hv, -⟩ := (settings_eq_ok_iff hparse htable hentries).1 h
  exact ⟨entries, htable, hentries, hv, rfl, rfl, rfl, rfl⟩

/-- The table of some whole numbers. -/
def integers (ns : List (String × Int)) : Value := .table (ns.map fun e => (e.1, .integer e.2))

/-- The whole numbers in a table that has nothing else. -/
def integers? : Value → Option (List (String × Int))
  | .table entries => entries.mapM fun e =>
    match e.2 with
    | .integer n => some (e.1, n)
    | _ => none
  | _ => none

theorem eq_integers {v : Value} {ns : List (String × Int)} (h : integers? v = some ns) :
    v = integers ns := by
  cases v with
  | table entries =>
    refine congrArg Value.table ?_
    induction entries generalizing ns with
    | nil =>
      cases h
      rfl
    | cons e entries ih =>
      obtain ⟨key, value⟩ := e
      rw [integers?, List.mapM_cons] at h
      obtain ⟨_, hvalue, h⟩ := Option.bind_eq_some_iff.1 h
      obtain ⟨rest, hrest, h⟩ := Option.bind_eq_some_iff.1 h
      cases h
      cases value with
      | integer n =>
        cases hvalue
        exact congrArg (_ :: ·) (ih hrest)
      | _ => cases hvalue
  | _ => cases h

/-- What a text says, by evaluation. -/
theorem ofText?_of_integers {text : String} {ns : List (String × Int)}
    (h : (Value.ofText? text).bind integers? = some ns) : Value.ofText? text = some (integers ns) := by
  obtain ⟨v, hv, hns⟩ := Option.bind_eq_some_iff.1 h
  rw [hv, eq_integers hns]

/-- Options for a capacity and a threshold. -/
def layered : Options :=
  { config := some "heap.toml", oldCapacity := some 1000, promotionThreshold := some 3 }

/-- A file with a mark, another capacity and the young capacity. -/
def layer : String := "old_high_water = 500\nold_capacity = 2000\nyoung_capacity = 64\n"

/-- The entries of the file. -/
def layerEntries : List (String × Value) :=
  [("old_high_water", .integer 500), ("old_capacity", .integer 2000), ("young_capacity", .integer 64)]

theorem hasTable_layered : layered.HasTable Value.ofText? (.holding layer) layerEntries :=
  hasTable_holding rfl (ofText?_of_integers
    (show _ = some [("old_high_water", 500), ("old_capacity", 2000), ("young_capacity", 64)] by
      decide +kernel))

theorem acceptable_layer : ∀ e ∈ layerEntries, Acceptable e := by
  simp only [layerEntries, List.forall_mem_cons]
  exact ⟨⟨.oldHighWater, 500, rfl, trivial⟩, ⟨.oldCapacity, 2000, rfl, trivial⟩,
    ⟨.youngCapacity, 64, rfl, trivial⟩, by simp⟩

theorem settings_layered :
    layered.settings Value.ofText? (.holding layer) = .ok ⟨64, 1000, 500, 3⟩ :=
  (settings_eq_ok_iff Value.ofText?_distinct hasTable_layered acceptable_layer).2
    ⟨by decide, by decide, by decide⟩

theorem settings_precedence_layered :
    layered.settings Value.ofText? (.holding layer) = .ok ⟨64, 1000, 500, 3⟩ ∧ ∃ entries,
      layered.HasTable Value.ofText? (.holding layer) entries ∧
      500 = ((layered.oldHighWater.or (Settings.given entries .oldHighWater)).or
        ((layered.oldCapacity.or (Settings.given entries .oldCapacity)).map markFor)).getD
          standard.oldHighWater := by
  obtain ⟨entries, htable, -, -, -, -, -, hmark⟩ :=
    settings_precedence Value.ofText?_distinct settings_layered
  exact ⟨settings_layered, entries, htable, hmark⟩

/-- **When a run has settings**, if its file has acceptable entries only: what the options and the file
    give together has to be consistent, and so has what the file gives alone.  The first is enough if
    and only if the second follows from it. -/
theorem settings_accepted_iff (hparse : parse.DistinctKeys) (htable : o.HasTable parse files entries)
    (h : ∀ e ∈ entries, Acceptable e) :
    (∀ s, o.settings parse files = .ok s ↔ s = o.merged entries ∧ s.validate = .ok () ∧
      (Settings.given entries).settings.validate = .ok ()) ∧
    (((∃ s, o.settings parse files = .ok s) ↔ (o.merged entries).validate = .ok ()) ↔
      ((o.merged entries).validate = .ok () →
        (Settings.given entries).settings.validate = .ok ())) ∧
    ∀ reason, (Settings.given entries).settings.inconsistency? = some reason →
      o.settings parse files = .error (.settings (.invalid reason)) := by
  refine ⟨?_, ?_, ?_⟩
  · intro s
    exact settings_eq_ok_iff hparse htable h
  · have hexists : (∃ s, o.settings parse files = .ok s) ↔ (o.merged entries).validate = .ok () ∧
        (Settings.given entries).settings.validate = .ok () := by
      simp only [settings_eq_ok_iff hparse htable h, exists_eq_left]
    rw [hexists]
    tauto
  · intro reason hreason
    rw [settings_of_table hparse htable h, validate_eq_error_iff.2 ⟨reason, hreason, rfl⟩]
    rfl

theorem settings_accepted_iff_layered :
    layered.HasTable Value.ofText? (.holding layer) layerEntries ∧
    (∀ e ∈ layerEntries, Acceptable e) ∧
    layered.settings Value.ofText? (.holding layer) = .ok ⟨64, 1000, 500, 3⟩ ∧
    ((∃ s, layered.settings Value.ofText? (.holding layer) = .ok s) ↔
      (layered.merged layerEntries).validate = .ok ()) := by
  obtain ⟨hiff, hexactly, -⟩ :=
    settings_accepted_iff Value.ofText?_distinct hasTable_layered acceptable_layer
  refine ⟨hasTable_layered, acceptable_layer, (hiff _).2 ⟨by decide, by decide, by decide⟩, ?_⟩
  exact hexactly.2 fun _ => by decide

/-- Options for a capacity, with a file that gives a mark above the standard capacity. -/
def outgrown : Options := { config := some "heap.toml", oldCapacity := some 60000 }

/-- A mark in the file that the capacity of the options has room for is refused, because the standard
    capacity has none. -/
theorem not_accepted_outgrown :
    outgrown.HasTable Value.ofText? (.holding "old_high_water = 50000\n")
        [("old_high_water", .integer 50000)] ∧
      (∀ e ∈ [("old_high_water", Value.integer 50000)], Acceptable e) ∧
      (outgrown.merged [("old_high_water", .integer 50000)]).validate = .ok () ∧
      outgrown.settings Value.ofText? (.holding "old_high_water = 50000\n") =
        .error (.settings (.invalid (.markAboveCapacity 50000 40960))) ∧
      ¬ ((∃ s, outgrown.settings Value.ofText? (.holding "old_high_water = 50000\n") = .ok s) ↔
        (outgrown.merged [("old_high_water", .integer 50000)]).validate = .ok ()) := by
  have htable : outgrown.HasTable Value.ofText? (.holding "old_high_water = 50000\n")
      [("old_high_water", .integer 50000)] :=
    hasTable_holding rfl
      (ofText?_of_integers (show _ = some [("old_high_water", 50000)] by decide +kernel))
  have hentries : ∀ e ∈ [("old_high_water", Value.integer 50000)], Acceptable e := by
    simp only [List.forall_mem_singleton]
    exact ⟨.oldHighWater, 50000, rfl, trivial⟩
  have hmerged : (outgrown.merged [("old_high_water", .integer 50000)]).validate = .ok () := by
    decide
  have hrefused : outgrown.settings Value.ofText? (.holding "old_high_water = 50000\n") =
      .error (.settings (.invalid (.markAboveCapacity 50000 40960))) := by
    have hfile : (Settings.given [("old_high_water", .integer 50000)]).settings.validate =
        .error (.invalid (.markAboveCapacity 50000 40960)) := by decide
    rw [settings_of_table Value.ofText?_distinct htable hentries, hfile]
    rfl
  refine ⟨htable, hentries, hmerged, hrefused, ?_⟩
  intro hiff
  obtain ⟨s, hs⟩ := hiff.2 hmerged
  rw [hrefused] at hs
  cases hs

end Options

end Tenure
