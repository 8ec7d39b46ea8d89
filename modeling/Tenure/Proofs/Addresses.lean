/-
  Tenure — addresses and moves.

  What an address that was built from a number names, and what a table of moves
  knows after a further move.
-/
import Tenure.Address.Arithmetic
import Tenure.Relocation

namespace Tenure

namespace Semispace

theorem number_lt (side : Semispace) : side.number < 2 := by cases side <;> decide

theorem space_ne_old (side : Semispace) : side.space ≠ .old := by simp [space]

end Semispace

namespace Address

theorem isOld_iff {p : Address} : p.isOld ↔ p.space = .old := by simp [isOld]

theorem not_isOld_of_young {p : Address} {side : Semispace} (h : p.space = side.space) :
    ¬ p.isOld := by
  rw [isOld_iff, h]
  exact side.space_ne_old

theorem eq_of_old {p q : Address} (hp : p.isOld) (hq : q.isOld) (h : p.position = q.position) :
    p = q :=
  ext_position ((isOld_iff.1 hp).trans (isOld_iff.1 hq).symm) h

theorem old_eq_ok_iff {i : Nat} {p : Address} : Address.old i = .ok p ↔ p.isOld ∧ p.position = i := by
  rw [Address.old, make_eq_ok_iff, isOld_iff]

theorem young_eq_ok_iff {side : Semispace} {i : Nat} {p : Address} :
    Address.young side.number i = .ok p ↔ p.space = side.space ∧ p.position = i := by
  rw [young, if_pos side.number_lt, make_eq_ok_iff, Semispace.space]

theorem exists_make {s : Space} {i : Nat} (hi : i < limit) : ∃ p, make s i = .ok p := by
  unfold make
  rw [if_pos hi]
  exact ⟨_, rfl⟩

theorem exists_young (side : Semispace) {i : Nat} (hi : i < limit) :
    ∃ p, Address.young side.number i = .ok p := by
  rw [young, if_pos side.number_lt]
  exact exists_make hi

end Address

namespace Relocation

theorem contains_store (r : Relocation) (source target p : Address) :
    (r.store source target).contains p ↔ source = p ∨ r.contains p := by
  simp [contains, store, Std.HashMap.contains_insert]

theorem not_contains_empty (p : Address) : ¬ empty.contains p := by simp [contains, empty]

theorem resolve_of_not_contains {r : Relocation} {p : Address} (h : ¬ r.contains p) :
    r.resolve p = p := by
  simp only [contains, Bool.not_eq_true] at h
  exact Std.HashMap.getD_eq_fallback_of_contains_eq_false h

theorem record_eq_ok_iff {r r' : Relocation} {source target : Address} :
    record source target r = .ok () r' ↔ ¬ r.contains source ∧ r' = r.store source target := by
  unfold record
  split
  · rename_i hc
    simp [hc]
  · rename_i hc
    simp [hc, eq_comm]

end Relocation

end Tenure
