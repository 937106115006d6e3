-- SUMMARY: Byte-addressed memory with little-endian loads and stores of any width, and the laws relating them.
import Mathlib.Tactic

/-!
# Byte memory

A memory maps every address to a byte. A load of `n` bytes reads them as one
little-endian number; a store of `n` bytes writes the low `n` bytes of one.
Nothing here depends on which widths a machine offers.
-/

namespace Memory

/-- Byte-addressed memory. -/
abbrev Mem := Nat → UInt8

/-! ## Little-endian numbers -/

/-- The number whose `n` little-endian bytes are `f 0, …, f (n - 1)`. -/
def leValue (f : Nat → UInt8) : Nat → Nat
  | 0 => 0
  | n + 1 => leValue f n + (f n).toNat * 256 ^ n

/-- Byte `i` of a number, counted from the least significant one. -/
def leByte (v i : Nat) : UInt8 := UInt8.ofNat (v / 256 ^ i)

theorem leByte_toNat (v i : Nat) : (leByte v i).toNat = v / 256 ^ i % 256 := by
  simp [leByte]

theorem leValue_lt (f : Nat → UInt8) (n : Nat) : leValue f n < 256 ^ n := by
  induction n with
  | zero => simp [leValue]
  | succ n ih =>
    have hbyte : (f n).toNat < 256 := (f n).toNat_lt
    have hstep : (f n).toNat * 256 ^ n ≤ 255 * 256 ^ n := Nat.mul_le_mul_right _ (by omega)
    rw [leValue, pow_succ]
    omega

/-- The bytes of an assembled number are the bytes it was assembled from. -/
theorem leByte_leValue {f : Nat → UInt8} {n i : Nat} (hi : i < n) :
    leByte (leValue f n) i = f i := by
  induction n with
  | zero => omega
  | succ n ih =>
    apply UInt8.toNat_inj.mp
    rw [leByte_toNat, leValue]
    rcases Nat.lt_succ_iff_lt_or_eq.mp hi with hlt | rfl
    · -- the top byte is a multiple of `256 ^ (i + 1)` and does not reach byte `i`
      have hsplit : 256 ^ n = 256 ^ i * (256 * 256 ^ (n - i - 1)) := by
        rw [← pow_succ', ← pow_add]
        congr 1
        omega
      have hih := congrArg UInt8.toNat (ih hlt)
      rw [leByte_toNat] at hih
      rw [hsplit, show (f n).toNat * (256 ^ i * (256 * 256 ^ (n - i - 1)))
          = 256 ^ i * (256 * ((f n).toNat * 256 ^ (n - i - 1))) by ring,
        Nat.add_mul_div_left _ _ (by positivity), Nat.add_mul_mod_self_left]
      exact hih
    · rw [Nat.add_mul_div_right _ _ (by positivity), Nat.div_eq_of_lt (leValue_lt f i)]
      have hbyte : (f i).toNat < 256 := (f i).toNat_lt
      omega

/-- Assembling the bytes of a number truncates it to the width. -/
theorem leValue_leByte (v n : Nat) : leValue (leByte v) n = v % 256 ^ n := by
  induction n with
  | zero => simp [leValue, Nat.mod_one]
  | succ n ih =>
    rw [leValue, ih, leByte_toNat, pow_succ, Nat.mod_mul]
    ring

theorem leValue_congr {f g : Nat → UInt8} {n : Nat} (h : ∀ i < n, f i = g i) :
    leValue f n = leValue g n := by
  induction n with
  | zero => rfl
  | succ n ih =>
    rw [leValue, leValue, ih (fun i hi => h i (by omega)), h n (by omega)]

/-- Two numbers of one width are equal exactly when their bytes are. -/
theorem leValue_eq_iff {f g : Nat → UInt8} {n : Nat} :
    leValue f n = leValue g n ↔ ∀ i < n, f i = g i := by
  constructor
  · intro h i hi
    rw [← leByte_leValue (f := f) hi, h, leByte_leValue hi]
  · exact leValue_congr

/-! ## Loads and stores -/

/-- The `n`-byte number at address `a`. -/
def load (m : Mem) (a n : Nat) : Nat := leValue (fun i => m (a + i)) n

/-- Write the low `n` bytes of `v` at address `a`. -/
def store (m : Mem) (a n v : Nat) : Mem :=
  fun b => if a ≤ b ∧ b < a + n then leByte v (b - a) else m b

theorem load_lt (m : Mem) (a n : Nat) : load m a n < 256 ^ n := leValue_lt _ _

theorem store_inside {m : Mem} {a n v b : Nat} (h : a ≤ b ∧ b < a + n) :
    store m a n v b = leByte v (b - a) := if_pos h

theorem store_outside {m : Mem} {a n v b : Nat} (h : ¬ (a ≤ b ∧ b < a + n)) :
    store m a n v b = m b := if_neg h

/-- A load reads back the store of the same width, narrowed to that width. -/
theorem load_store_same (m : Mem) (a n v : Nat) : load (store m a n v) a n = v % 256 ^ n := by
  rw [load, ← leValue_leByte]
  apply leValue_congr
  intro i hi
  rw [store_inside ⟨by omega, by omega⟩, Nat.add_sub_cancel_left]

theorem load_eq_iff {m m' : Mem} {a n : Nat} :
    load m a n = load m' a n ↔ ∀ b, a ≤ b ∧ b < a + n → m b = m' b := by
  rw [load, load, leValue_eq_iff]
  constructor
  · intro h b hb
    have := h (b - a) (by omega)
    rwa [Nat.add_sub_cancel' hb.1] at this
  · exact fun h i hi => h (a + i) ⟨by omega, by omega⟩

/-- A load holds `v` exactly when each of its bytes is the byte of `v` there. -/
theorem load_eq_val_iff {m : Mem} {a n v : Nat} (hv : v < 256 ^ n) :
    load m a n = v ↔ ∀ b, a ≤ b ∧ b < a + n → m b = leByte v (b - a) := by
  rw [← Nat.mod_eq_of_lt hv, ← load_store_same m a n v, load_eq_iff, load_store_same,
    Nat.mod_eq_of_lt hv]
  constructor
  · intro h b hb
    rw [h b hb, store_inside hb]
  · intro h b hb
    rw [h b hb, store_inside hb]

theorem leByte_load {m : Mem} {a n b : Nat} (h : a ≤ b ∧ b < a + n) :
    leByte (load m a n) (b - a) = m b := by
  rw [load, leByte_leValue (by omega), Nat.add_sub_cancel' h.1]

/-- Storing back what was there before a store of the same width undoes it. -/
theorem store_load_store (m : Mem) (a n v : Nat) :
    store (store m a n v) a n (load m a n) = m := by
  funext b
  by_cases h : a ≤ b ∧ b < a + n
  · rw [store_inside h, leByte_load h]
  · rw [store_outside h, store_outside h]

end Memory
