-- SUMMARY: Reflected cyclic redundancy checks of any width and polynomial: division bit by bit, by table and by words.
import Mathlib.Tactic

/-!
# Cyclic redundancy checks

A reflected CRC divides the message by a polynomial, least significant bit first. The
register is shifted out one bit at a time, and a bit that leaves is answered by the
polynomial. Shifting is linear over exclusive or, so what a register contributes can be
looked up in parts: a byte at a time, or several bytes at once with one table per distance.
-/

namespace Checksum

variable {w : Nat}

/-- One step of the division. -/
def bitStep (poly x : BitVec w) : BitVec w :=
  if x.getLsbD 0 then (x >>> 1) ^^^ poly else x >>> 1

/-- `n` steps of the division. -/
def shift (poly : BitVec w) : Nat → BitVec w → BitVec w
  | 0, x => x
  | n + 1, x => shift poly n (bitStep poly x)

/-- The register after one more byte of the message. -/
def update (poly crc : BitVec w) (byte : UInt8) : BitVec w :=
  shift poly 8 (crc ^^^ BitVec.ofNat w byte.toNat)

/-- The register after a message. -/
def crc (poly init : BitVec w) (bytes : List UInt8) : BitVec w := bytes.foldl (update poly) init

/-- The number whose little-endian bytes are `bytes`. -/
def word : List UInt8 → Nat
  | [] => 0
  | byte :: bytes => byte.toNat + 256 * word bytes

/-- The low `n` bytes of a number, little-endian. -/
def bytesOf : Nat → Nat → List UInt8
  | 0, _ => []
  | n + 1, x => UInt8.ofNat x :: bytesOf n (x / 256)

variable {poly x y init : BitVec w} {m n : Nat} {byte : UInt8} {bytes rest : List UInt8}

@[simp] theorem crc_nil : crc poly init [] = init := rfl

@[simp] theorem crc_cons :
    crc poly init (byte :: bytes) = crc poly (update poly init byte) bytes := rfl

/-- A message may be handed over in parts. -/
theorem crc_append : crc poly init (bytes ++ rest) = crc poly (crc poly init bytes) rest :=
  List.foldl_append

theorem crc_take_add (m n : Nat) : crc poly init (bytes.take (m + n)) =
    crc poly (crc poly init (bytes.take m)) ((bytes.drop m).take n) := by
  rw [List.take_add, crc_append]

/-! ## Linearity -/

theorem bitStep_xor : bitStep poly (x ^^^ y) = bitStep poly x ^^^ bitStep poly y := by
  have hcancel : ∀ a b : BitVec w, a ^^^ b = (a ^^^ poly) ^^^ (b ^^^ poly) := by
    intro a b
    rw [BitVec.xor_assoc, BitVec.xor_comm b poly, ← BitVec.xor_assoc poly, BitVec.xor_self,
      BitVec.zero_xor]
  simp only [bitStep, BitVec.getLsbD_xor, BitVec.ushiftRight_xor_distrib]
  cases x.getLsbD 0 <;> cases y.getLsbD 0
  · simp
  · simp [BitVec.xor_assoc]
  · simp only [Bool.true_xor, Bool.not_false, if_true, Bool.false_eq_true, if_false]
    rw [BitVec.xor_assoc, BitVec.xor_comm (y >>> 1), ← BitVec.xor_assoc]
  · simp only [Bool.bne_true, Bool.not_true, Bool.false_eq_true, if_false, if_true]
    exact hcancel _ _

theorem shift_xor : shift poly n (x ^^^ y) = shift poly n x ^^^ shift poly n y := by
  induction n generalizing x y with
  | zero => rfl
  | succ n ih => rw [shift, shift, shift, bitStep_xor, ih]

@[simp] theorem shift_zero_right : shift poly n 0#w = 0#w := by
  have h : shift poly n (0#w ^^^ 0#w) = shift poly n 0#w ^^^ shift poly n 0#w := shift_xor
  rwa [BitVec.xor_self, BitVec.xor_self] at h

theorem shift_add : shift poly (m + n) x = shift poly n (shift poly m x) := by
  induction m generalizing x with
  | zero => rw [Nat.zero_add, shift]
  | succ m ih => rw [Nat.succ_add, shift, shift, ih]

/-- Bits that are not set leave without an answer. -/
theorem shift_of_low (h : ∀ i < n, x.getLsbD i = false) : shift poly n x = x >>> n := by
  induction n generalizing x with
  | zero => rw [shift, BitVec.ushiftRight_zero]
  | succ n ih =>
    have hstep : bitStep poly x = x >>> 1 := by
      rw [bitStep, h 0 (Nat.succ_pos n)]
      rfl
    rw [shift, hstep, ih fun i hi => ?_, ← BitVec.shiftRight_add, Nat.add_comm]
    rw [BitVec.getLsbD_ushiftRight]
    exact h (1 + i) (by omega)

/-! ## Tables -/

/-- A register is its low bits and the others. -/
theorem eq_high_xor_low (k : Nat) :
    x = ((x >>> k) <<< k) ^^^ BitVec.ofNat w (x.toNat % 2 ^ k) := by
  apply BitVec.eq_of_getLsbD_eq
  intro i hi
  have hlow : (x.toNat % 2 ^ k).testBit i = (decide (i < k) && x.getLsbD i) := by
    rw [Nat.testBit_mod_two_pow]
    rfl
  rw [BitVec.getLsbD_xor, BitVec.getLsbD_shiftLeft, BitVec.getLsbD_ushiftRight, BitVec.getLsbD_ofNat,
    hlow]
  rcases Nat.lt_or_ge i k with hlt | hge
  · simp [hi, hlt]
  · simp [hi, Nat.not_lt.mpr hge, Nat.add_sub_cancel' hge]

/-- The low `k` bits of the register can be looked up, at any distance; the others only
move. -/
theorem shift_add_eq (k n : Nat) (x : BitVec w) : shift poly (k + n) x =
    shift poly n (x >>> k) ^^^ shift poly (k + n) (BitVec.ofNat w (x.toNat % 2 ^ k)) := by
  have hhigh : shift poly k ((x >>> k) <<< k) = x >>> k := by
    have hclear : ∀ i < k, ((x >>> k) <<< k).getLsbD i = false := by
      intro i hi
      simp [BitVec.getLsbD_shiftLeft, hi]
    rw [shift_of_low hclear]
    apply BitVec.eq_of_getLsbD_eq
    intro i hi
    rw [BitVec.getLsbD_ushiftRight, BitVec.getLsbD_shiftLeft, BitVec.getLsbD_ushiftRight,
      Nat.add_sub_cancel_left]
    rcases Nat.lt_or_ge (k + i) w with hlt | hge
    · simp [hlt]
    · simp [BitVec.getLsbD_of_ge x (k + i) hge]
  conv_lhs => rw [eq_high_xor_low (x := x) k, shift_xor, shift_add, hhigh]

/-- A byte moves into a register: the table is entered with the byte that leaves. -/
theorem update_eq (h : 8 ≤ w) : update poly init byte =
    (init >>> 8) ^^^
      shift poly 8 (BitVec.ofNat w ((init ^^^ BitVec.ofNat w byte.toNat).toNat % 256)) := by
  have hbyte : (BitVec.ofNat w byte.toNat) >>> 8 = 0#w := by
    have hlt : byte.toNat < 2 ^ 8 := byte.toNat_lt
    have hle : 2 ^ 8 ≤ 2 ^ w := Nat.pow_le_pow_right (by decide) h
    apply BitVec.eq_of_toNat_eq
    rw [BitVec.toNat_ushiftRight, BitVec.toNat_ofNat, Nat.mod_eq_of_lt (by omega),
      Nat.shiftRight_eq_div_pow, Nat.div_eq_of_lt hlt]
    simp
  rw [update, shift_add_eq 8 0, shift, BitVec.ushiftRight_xor_distrib, hbyte, BitVec.xor_zero]
  rfl

/-! ## Words -/

theorem word_lt : word bytes < 2 ^ (8 * bytes.length) := by
  induction bytes with
  | nil => simp [word]
  | cons byte bytes ih =>
    have hlt : byte.toNat < 256 := byte.toNat_lt
    rw [word, List.length_cons, Nat.mul_succ, pow_add]
    omega

@[simp] theorem bytesOf_word : bytesOf bytes.length (word bytes) = bytes := by
  induction bytes with
  | nil => rfl
  | cons byte bytes ih =>
    have hlt : byte.toNat < 256 := byte.toNat_lt
    have hhigh : word (byte :: bytes) / 256 = word bytes := by
      rw [word]
      omega
    have hlow : UInt8.ofNat (word (byte :: bytes)) = byte := by
      apply UInt8.toNat_inj.mp
      rw [word, UInt8.toNat_ofNat']
      omega
    rw [List.length_cons, bytesOf, hhigh, hlow, ih]

/-- Bytes that fit into the register may be added to it at once. -/
theorem crc_eq_shift (h : 8 * bytes.length ≤ w) :
    crc poly init bytes = shift poly (8 * bytes.length) (init ^^^ BitVec.ofNat w (word bytes)) := by
  induction bytes generalizing init with
  | nil => simp [word, shift]
  | cons byte bytes ih =>
    rw [List.length_cons] at h
    have hlt : word (byte :: bytes) < 2 ^ w :=
      Nat.lt_of_lt_of_le word_lt (Nat.pow_le_pow_right (by decide) h)
    have hbyte : byte.toNat < 256 := byte.toNat_lt
    have hle : 2 ^ 8 ≤ 2 ^ w := Nat.pow_le_pow_right (by decide) (by omega)
    -- the bytes behind the first are the high part of the word
    have hhigh : (BitVec.ofNat w (word (byte :: bytes))) >>> 8 = BitVec.ofNat w (word bytes) := by
      apply BitVec.eq_of_toNat_eq
      rw [word] at hlt ⊢
      rw [BitVec.toNat_ushiftRight, BitVec.toNat_ofNat, BitVec.toNat_ofNat, Nat.mod_eq_of_lt hlt,
        Nat.mod_eq_of_lt (by omega), Nat.shiftRight_eq_div_pow]
      omega
    have hlow : (init ^^^ BitVec.ofNat w (word (byte :: bytes))).toNat % 2 ^ 8 =
        (init ^^^ BitVec.ofNat w byte.toNat).toNat % 2 ^ 8 := by
      have hfits : byte.toNat < 2 ^ w := by omega
      rw [BitVec.toNat_xor, BitVec.toNat_xor, BitVec.toNat_ofNat, BitVec.toNat_ofNat,
        Nat.mod_eq_of_lt hlt, Nat.mod_eq_of_lt hfits, Nat.xor_mod_two_pow, Nat.xor_mod_two_pow, word]
      congr 1
      omega
    rw [crc_cons, ih (by omega), update_eq (by omega), List.length_cons, Nat.mul_succ, Nat.add_comm,
      shift_add_eq 8, BitVec.ushiftRight_xor_distrib, hhigh, hlow, shift_xor, shift_xor, shift_xor,
      ← shift_add, BitVec.xor_assoc, BitVec.xor_assoc]
    congr 1
    exact BitVec.xor_comm _ _

/-! ## Evaluation -/

/-- One step of the division on the number in the register. -/
def bitStepNat (poly x : Nat) : Nat := (x / 2) ^^^ (x % 2 * poly)

theorem toNat_bitStep : (bitStep poly x).toNat = bitStepNat poly.toNat x.toNat := by
  have hbit : x.getLsbD 0 = decide (x.toNat % 2 = 1) := by
    rw [BitVec.getLsbD, Nat.testBit_zero]
  rcases Nat.mod_two_eq_zero_or_one x.toNat with heven | hodd
  · simp [bitStep, bitStepNat, hbit, heven, Nat.shiftRight_eq_div_pow]
  · simp [bitStep, bitStepNat, hbit, hodd, Nat.shiftRight_eq_div_pow]

theorem toNat_shift : (shift poly n x).toNat = (bitStepNat poly.toNat)^[n] x.toNat := by
  induction n generalizing x with
  | zero => rfl
  | succ n ih => rw [shift, ih, toNat_bitStep, Function.iterate_succ_apply]

end Checksum
