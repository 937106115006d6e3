-- SUMMARY: How many entries fit into an `abuf` whose capacity is an `int` that is doubled.
import LibSei.Abuf.Basic

/-!
# The capacity of a log

`ABUF_CHECK_SIZE` doubles a full array. From `2 ^ 30` entries on the doubled capacity is negative
as an `int`, `realloc` is asked for more than there can be, and the process stops. So an array
that started with some number of entries can take as many as the largest power of two times that
number which is an `int`.
-/

namespace LibSei

open Memory Control

namespace Abuf

/-- The greatest capacity an array that started with `c` entries can have. -/
def limit (c : Nat) : Nat := c * 2 ^ Nat.log 2 ((2 ^ 31 - 1) / c)

/-- How many more entries a log can take. -/
def room (a : Abuf) : Nat := limit a.maxSize - a.pushed

/-- A capacity that an array comes to from `c` by doubling. -/
def Grown (c m : Nat) : Prop := m < 2 ^ 31 ∧ ∃ j, m = c * 2 ^ j

section Capacities

variable {c m : Nat}

theorem doubled_of_lt (h : m < 2 ^ 30) : doubled m = m * 2 :=
  Int.bmod_eq_of_le (by omega) (by omega)

/-- From `2 ^ 30` on doubling overflows. -/
theorem doubled_of_ge (hlt : m < 2 ^ 31) (h : 2 ^ 30 ≤ m) : doubled m = m * 2 - 2 ^ 32 := by
  have hsplit : (m : Int) * 2 = (m * 2 - 2 ^ 32) + (2 ^ 32 : Nat) := by omega
  calc doubled m = Int.bmod ((m * 2 - 2 ^ 32) + (2 ^ 32 : Nat)) (2 ^ 32) :=
        congrArg (Int.bmod · (2 ^ 32)) hsplit
    _ = Int.bmod (m * 2 - 2 ^ 32) (2 ^ 32) := Int.add_bmod_right ..
    _ = m * 2 - 2 ^ 32 := Int.bmod_eq_of_le (by omega) (by omega)

/-- A negative capacity asks for more than there can be. -/
theorem granted_iff (h : m < 2 ^ 31) : Granted m ↔ m < 2 ^ 30 := by
  by_cases hm : m < 2 ^ 30
  · simp only [Granted, bytes, doubled_of_lt hm, sizeofEntry, hm, iff_true]
    omega
  · simp only [Granted, bytes, doubled_of_ge h (Nat.not_lt.mp hm), sizeofEntry, hm, iff_false]
    omega

theorem grown_limit (hc : 0 < c) (hlt : c < 2 ^ 31) : Grown c (limit c) := by
  have hpow : 2 ^ Nat.log 2 ((2 ^ 31 - 1) / c) ≤ (2 ^ 31 - 1) / c :=
    Nat.pow_log_le_self 2 (Nat.div_pos (by omega) hc).ne'
  have hle : limit c ≤ 2 ^ 31 - 1 :=
    (Nat.mul_le_mul_left c hpow).trans (Nat.mul_div_le (2 ^ 31 - 1) c)
  exact ⟨by omega, _, rfl⟩

theorem room_lt {a : Abuf} (hint : a.maxSize < 2 ^ 31) : a.room < 2 ^ 31 :=
  Nat.lt_of_le_of_lt (Nat.sub_le _ _) (grown_limit a.maxSize_pos hint).1

theorem Grown.le_limit (hc : 0 < c) (h : Grown c m) : m ≤ limit c := by
  obtain ⟨hlt, j, rfl⟩ := h
  have hpow : 2 ^ j ≤ (2 ^ 31 - 1) / c := by
    rw [Nat.le_div_iff_mul_le hc, Nat.mul_comm]
    omega
  exact Nat.mul_le_mul_left c
    (Nat.pow_le_pow_right (by decide) (Nat.le_log_of_pow_le (by decide) hpow))

theorem Grown.double (h : Grown c m) (hm : m < 2 ^ 30) : Grown c (m * 2) := by
  obtain ⟨-, j, rfl⟩ := h
  exact ⟨by omega, j + 1, by rw [Nat.pow_succ, Nat.mul_assoc]⟩

/-- An array can be doubled until it has the greatest capacity. -/
theorem Grown.granted_iff (hc : 0 < c) (hlt : c < 2 ^ 31) (h : Grown c m) :
    Granted m ↔ m < limit c := by
  have hle := h.le_limit hc
  rw [Abuf.granted_iff h.1]
  constructor
  · intro hm
    have hdouble := (h.double hm).le_limit hc
    obtain ⟨-, j, rfl⟩ := h
    have hpos : 0 < c * 2 ^ j := Nat.mul_pos hc (Nat.pow_pos (by decide))
    omega
  · -- the next power of two still fits below the greatest capacity
    intro hm
    obtain ⟨hbound, k, hk⟩ := grown_limit hc hlt
    obtain ⟨-, j, rfl⟩ := h
    rw [hk] at hm
    have hpow : 2 ^ j < 2 ^ k := Nat.lt_of_mul_lt_mul_left hm
    have hjk : j + 1 ≤ k := (Nat.pow_lt_pow_iff_right (by decide)).mp hpow
    have hstep : c * 2 ^ (j + 1) ≤ c * 2 ^ k :=
      Nat.mul_le_mul_left c (Nat.pow_le_pow_right (by decide) hjk)
    rw [Nat.pow_succ, ← Nat.mul_assoc, ← hk] at hstep
    omega

/-- Capacities that are powers of two grow to the same one. -/
theorem limit_two_pow {i : Nat} (hi : i ≤ 30) : limit (2 ^ i) = 2 ^ 30 := by
  have hpos : 0 < 2 ^ i := Nat.pow_pos (by decide)
  have hlt : 2 ^ i < 2 ^ 31 := Nat.pow_lt_pow_right (by decide) (by omega)
  apply Nat.le_antisymm
  · obtain ⟨hbound, k, hk⟩ := grown_limit hpos hlt
    rw [hk, ← Nat.pow_add] at hbound ⊢
    have hexp : i + k < 31 := (Nat.pow_lt_pow_iff_right (by decide)).mp hbound
    exact Nat.pow_le_pow_right (by decide) (by omega)
  · refine Grown.le_limit hpos ⟨by decide, 30 - i, ?_⟩
    rw [← Nat.pow_add, Nat.add_sub_cancel' hi]

theorem limit_one : limit 1 = 2 ^ 30 := limit_two_pow (Nat.zero_le 30)

/-- A log can take entries until the greatest capacity is filled. -/
theorem Grown.hasRoom_iff {a : Abuf} (hc : 0 < c) (hlt : c < 2 ^ 31) (h : Grown c a.maxSize) :
    a.HasRoom ↔ a.pushed < limit c := by
  have hle := h.le_limit hc
  have hpushed := a.pushed_le
  rw [HasRoom, h.granted_iff hc hlt]
  omega

/-- There is room for one more entry as long as fewer were made than there was room for. -/
theorem Grown.hasRoom_iff_lt_room {a a' : Abuf} {k : Nat} (hint : a.maxSize < 2 ^ 31)
    (h : Grown a.maxSize a'.maxSize) (hpushed : a'.pushed = a.pushed + k) :
    a'.HasRoom ↔ k < a.room := by
  rw [h.hasRoom_iff a.maxSize_pos hint, room]
  omega

/-- A push keeps the capacity one that the array comes to. -/
theorem Grown.push {a : Abuf} {t : UIntTy} {addr value : Nat} (h : Grown c a.maxSize)
    (hroom : a.HasRoom) : Grown c (a.push t addr value).maxSize := by
  show Grown c a.grow.maxSize
  rw [grow]
  split
  · next hfull => exact h.double ((Abuf.granted_iff h.1).mp (hroom hfull))
  · exact h

theorem Grown.refl (hlt : c < 2 ^ 31) : Grown c c := ⟨hlt, 0, (Nat.mul_one c).symm⟩

end Capacities

end Abuf

end LibSei
