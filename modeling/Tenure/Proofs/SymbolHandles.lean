/-
  Tenure — what a handle says of a name.

  Cells hold the handles of names and compare nothing else, so two names must never have one handle and
  one name never two, however names that are new and names that are known follow each other.

  * `SymbolTable.ofCalls`, `SymbolTable.handle?`: a table after some names were interned, and the handle
    that was given for one of them.
  * `intern_cases`: what interning one name does.
  * `Registers`: the table has the names that were interned, each of them once; `registers_ofCalls`.
  * `getElem?_ofCalls`: a name stays where it is while others are interned.
  * `handles_tell_names`: handles and names determine each other, at every later time.
-/
import Mathlib.Data.Finset.Card
import Mathlib.Data.List.Nodup
import Tenure.Symbols

namespace Tenure

theorem SymbolId.ofNumber_of_lt {number : Nat} (h : number < SymbolId.limit) :
    SymbolId.ofNumber number = ⟨number⟩ :=
  congrArg SymbolId.mk (Nat.mod_eq_of_lt h)

namespace SymbolTable

variable {table : SymbolTable} {calls : List String} {name other : String} {i j k n : Nat}

/-! ## One name -/

/-- What interning a name does: a known one is found where it is, a new one is put behind the others. -/
theorem intern_cases (table : SymbolTable) (name : String) :
    (∃ n, table.names[n]? = some name ∧ table.intern name = (table, .ofNumber n)) ∨
    (name ∉ table.names ∧
      table.intern name = (⟨table.names.push name⟩, .ofNumber table.names.size)) := by
  unfold intern
  split
  · rename_i n hn
    obtain ⟨hlt, hname, -⟩ := Array.findIdx?_eq_some_iff_getElem.1 hn
    exact .inl ⟨n, Array.getElem?_eq_some_iff.2 ⟨hlt, by simpa using hname⟩, rfl⟩
  · rename_i hnone
    refine .inr ⟨fun hmem => ?_, rfl⟩
    simpa using Array.findIdx?_eq_none_iff.1 hnone name hmem

theorem intern_of_mem (h : name ∈ table.names) : (table.intern name).1 = table := by
  rcases table.intern_cases name with ⟨n, -, heq⟩ | ⟨hnew, -⟩
  · rw [heq]
  · exact absurd h hnew

theorem intern_of_not_mem (h : name ∉ table.names) :
    (table.intern name).2 = .ofNumber table.size := by
  rcases table.intern_cases name with ⟨n, hn, -⟩ | ⟨-, heq⟩
  · exact absurd (Array.mem_of_getElem? hn) h
  · rw [heq, size]

/-- The handle for a name is the number of its place. -/
theorem exists_place (table : SymbolTable) (name : String) :
    ∃ n, (table.intern name).2 = .ofNumber n ∧ (table.intern name).1.names[n]? = some name := by
  rcases table.intern_cases name with ⟨n, hn, heq⟩ | ⟨-, heq⟩
  · exact ⟨n, by rw [heq], by rw [heq, hn]⟩
  · exact ⟨_, by rw [heq], by rw [heq]; exact Array.getElem?_push_size⟩

/-- A name stays where it is when another one is interned. -/
theorem getElem?_intern (h : table.names[n]? = some name) (other : String) :
    (table.intern other).1.names[n]? = some name := by
  rcases table.intern_cases other with ⟨_, -, heq⟩ | ⟨-, heq⟩
  · rw [heq, h]
  · have hlt : n < table.names.size := (Array.getElem?_eq_some_iff.1 h).1
    rw [heq, Array.getElem?_push, if_neg hlt.ne, h]

/-- The table has the names that were interned, each of them once. -/
structure Registers (table : SymbolTable) (calls : List String) : Prop where
  nodup : table.names.toList.Nodup
  mem_iff : ∀ name, name ∈ table.names ↔ name ∈ calls

theorem Registers.size_eq (h : table.Registers calls) : table.size = calls.toFinset.card := by
  have hsame : table.names.toList.toFinset = calls.toFinset := by
    ext name
    rw [List.mem_toFinset, List.mem_toFinset, Array.mem_toList_iff, h.mem_iff]
  rw [← hsame, List.toFinset_card_of_nodup h.nodup, Array.length_toList, size]

theorem Registers.intern (h : table.Registers calls) (name : String) :
    (table.intern name).1.Registers (calls ++ [name]) := by
  rcases table.intern_cases name with ⟨n, hn, heq⟩ | ⟨hnew, heq⟩
  · have hknown : name ∈ calls := (h.mem_iff name).1 (Array.mem_of_getElem? hn)
    rw [heq]
    refine ⟨h.nodup, fun other => ?_⟩
    rw [h.mem_iff, List.mem_append, List.mem_singleton]
    exact ⟨.inl, fun hother => hother.elim id fun heq => heq ▸ hknown⟩
  · rw [heq]
    constructor
    · rw [Array.toList_push, List.nodup_append]
      refine ⟨h.nodup, List.nodup_singleton name, fun other hother last hlast => ?_⟩
      rw [List.mem_singleton.1 hlast]
      rintro rfl
      exact hnew (Array.mem_toList_iff.1 hother)
    · intro other
      rw [Array.mem_push, h.mem_iff, List.mem_append, List.mem_singleton]

/-- Two places of a name are the same. -/
theorem Registers.place_eq (h : table.Registers calls) (hi : table.names[i]? = some name)
    (hj : table.names[j]? = some name) : i = j := by
  have hlt : i < table.names.toList.length := (Array.getElem?_eq_some_iff.1 hi).1
  refine (List.getElem?_inj hlt h.nodup).1 ?_
  rw [Array.getElem?_toList, Array.getElem?_toList, hi, hj]

/-! ## Many names -/

/-- The table after names were interned one after the other, from an empty one. -/
def ofCalls (calls : List String) : SymbolTable :=
  calls.foldl (fun table name => (table.intern name).1) .empty

/-- The handle that was given in one of the calls. -/
def handle? (calls : List String) (i : Nat) : Option SymbolId :=
  calls[i]?.map fun name => ((ofCalls (calls.take i)).intern name).2

theorem ofCalls_append_singleton (calls : List String) (name : String) :
    ofCalls (calls ++ [name]) = ((ofCalls calls).intern name).1 :=
  List.foldl_concat ..

theorem ofCalls_take_succ (h : calls[i]? = some name) :
    ofCalls (calls.take (i + 1)) = ((ofCalls (calls.take i)).intern name).1 := by
  rw [List.take_add_one, h]
  exact ofCalls_append_singleton _ _

/-- **The table has the names that were interned**, each of them once. -/
theorem registers_ofCalls (calls : List String) : (ofCalls calls).Registers calls := by
  induction calls using List.reverseRecOn with
  | nil => exact ⟨List.nodup_nil, fun _ => ⟨fun h => (Array.not_mem_empty _ h).elim, nofun⟩⟩
  | append_singleton calls name ih =>
    rw [ofCalls_append_singleton]
    exact ih.intern name

/-- **A name stays where it is** while others are interned. -/
theorem getElem?_ofCalls (h : (ofCalls (calls.take j)).names[n]? = some name) (hjk : j ≤ k) :
    (ofCalls (calls.take k)).names[n]? = some name := by
  induction k, hjk using Nat.le_induction with
  | base => exact h
  | succ k _ ih =>
    cases hk : calls[k]? with
    | none =>
      rw [List.take_add_one, hk]
      simpa using ih
    | some other =>
      rw [ofCalls_take_succ hk]
      exact getElem?_intern ih other

/-- The place of the name of a call, where it is from then on, gives the handle if there are not too
    many names. -/
theorem exists_handle (hfew : calls.toFinset.card < SymbolId.limit) (hi : calls[i]? = some name) :
    ∃ n, handle? calls i = some ⟨n⟩ ∧
      ∀ k, i < k → (ofCalls (calls.take k)).names[n]? = some name := by
  obtain ⟨n, hhandle, hplace⟩ := exists_place (ofCalls (calls.take i)) name
  rw [← ofCalls_take_succ hi] at hplace
  have hlater : ∀ k, i < k → (ofCalls (calls.take k)).names[n]? = some name := fun k hk =>
    getElem?_ofCalls hplace hk
  have hlast := hlater (calls.length + i + 1) (by omega)
  rw [List.take_of_length_le (by omega)] at hlast
  have hlt : n < SymbolId.limit := by
    have hsize : n < (ofCalls calls).size := (Array.getElem?_eq_some_iff.1 hlast).1
    rw [(registers_ofCalls calls).size_eq] at hsize
    exact hsize.trans hfew
  refine ⟨n, ?_, hlater⟩
  rw [handle?, hi, Option.map_some, hhandle, SymbolId.ofNumber_of_lt hlt]

/-- **Handles tell names.**  Of any names that were interned one after the other, fewer than there are
    handles: two calls are answered alike if and only if their names are equal; a handle stands for its
    name ever after; what is no handle of a name so far has a number that has not been reached; new
    names are numbered in their order, from zero; and a known name changes nothing. -/
theorem handles_tell_names (calls : List String) (hfew : calls.toFinset.card < SymbolId.limit) :
    (∀ i j a b, calls[i]? = some a → calls[j]? = some b →
      (handle? calls i = handle? calls j ↔ a = b)) ∧
    (∀ i a, calls[i]? = some a → ∃ id, handle? calls i = some id ∧
      ∀ k, i < k → (ofCalls (calls.take k)).resolve? id = some a) ∧
    (∀ k, (ofCalls (calls.take k)).size = (calls.take k).toFinset.card ∧
      ∀ id, (ofCalls (calls.take k)).resolve? id = none ↔ (calls.take k).toFinset.card ≤ id.index) ∧
    (∀ i a, calls[i]? = some a → a ∉ calls.take i →
      handle? calls i = some ⟨(calls.take i).toFinset.card⟩) ∧
    ∀ i a, calls[i]? = some a → a ∈ calls.take i →
      ofCalls (calls.take (i + 1)) = ofCalls (calls.take i) := by
  refine ⟨?_, ?_, ?_, ?_, ?_⟩
  · intro i j a b ha hb
    obtain ⟨m, hm, hplace⟩ := exists_handle hfew ha
    obtain ⟨n, hn, hplace'⟩ := exists_handle hfew hb
    -- both names have their places in a table that comes after both calls
    replace hplace := hplace (i + j + 1) (by omega)
    replace hplace' := hplace' (i + j + 1) (by omega)
    rw [hm, hn, Option.some_inj, SymbolId.mk.injEq]
    constructor
    · rintro rfl
      exact Option.some.inj (hplace.symm.trans hplace')
    · rintro rfl
      exact (registers_ofCalls _).place_eq hplace hplace'
  · intro i a ha
    obtain ⟨n, hn, hplace⟩ := exists_handle hfew ha
    exact ⟨⟨n⟩, hn, hplace⟩
  · intro k
    have hsize := (registers_ofCalls (calls.take k)).size_eq
    refine ⟨hsize, fun id => ?_⟩
    rw [resolve?, Array.getElem?_eq_none_iff, ← hsize, size]
  · intro i a ha hnew
    have hregisters := registers_ofCalls (calls.take i)
    have hbefore : (calls.take i).toFinset.card ≤ calls.toFinset.card :=
      Finset.card_le_card fun name hname => by
        rw [List.mem_toFinset] at hname ⊢
        exact List.mem_of_mem_take hname
    rw [← hregisters.mem_iff] at hnew
    rw [handle?, ha, Option.map_some, intern_of_not_mem hnew, hregisters.size_eq,
      SymbolId.ofNumber_of_lt (hbefore.trans_lt hfew)]
  · intro i a ha hknown
    rw [← (registers_ofCalls (calls.take i)).mem_iff] at hknown
    rw [ofCalls_take_succ ha, intern_of_mem hknown]

/-- Four calls, of which the third is for a name that is known, and the last for an empty one. -/
theorem handles_tell_names_repeated :
    (["car", "cdr", "car", ""].toFinset.card < SymbolId.limit) ∧
    handle? ["car", "cdr", "car", ""] 2 = handle? ["car", "cdr", "car", ""] 0 ∧
    handle? ["car", "cdr", "car", ""] 1 ≠ handle? ["car", "cdr", "car", ""] 0 ∧
    handle? ["car", "cdr", "car", ""] 3 = some ⟨2⟩ ∧
    (∃ id, handle? ["car", "cdr", "car", ""] 0 = some id ∧
      (ofCalls ["car", "cdr", "car", ""]).resolve? id = some "car") ∧
    (ofCalls ["car", "cdr", "car", ""]).resolve? ⟨3⟩ = none := by
  have hfew : (["car", "cdr", "car", ""].toFinset.card < SymbolId.limit) := by decide
  obtain ⟨hequal, hresolve, hsize, hnew, -⟩ := handles_tell_names ["car", "cdr", "car", ""] hfew
  refine ⟨hfew, (hequal 2 0 _ _ rfl rfl).2 rfl, ?_, hnew 3 "" rfl (by decide), ?_, ?_⟩
  · exact fun hsame => absurd ((hequal 1 0 _ _ rfl rfl).1 hsame) (by decide)
  · obtain ⟨id, hid, hlater⟩ := hresolve 0 _ rfl
    exact ⟨id, hid, hlater 4 (by decide)⟩
  · exact ((hsize 4).2 ⟨3⟩).2 (by decide)

end SymbolTable

end Tenure
