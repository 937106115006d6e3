-- SUMMARY: The faults that `abuf_corrupt_*` puts into a log: which entries they touch, and which of the values change.
import LibSei.Abuf.Logs

/-!
# Corrupted logs

With fault injection an entry of a log is corrupted by an exclusive or on its 64-bit word. The
value of the entry lies in a slot of that word that is picked from the address, and bits outside
of the slot are never read. The corruption functions differ in the entries and the bits.
-/

namespace LibSei

open Memory

namespace AbufWord

/-- `ABUF_WVAL(e) ^= x`. -/
def xorWval (w : AbufWord) (x : Nat) : AbufWord := fun j => w j ^^^ leByte x j

theorem xorWval_zero (w : AbufWord) : w.xorWval 0 = w := by
  funext j
  simp [xorWval, leByte]

/-- The value read from a corrupted word. -/
theorem wvax_xorWval (w : AbufWord) (x : Nat) (t : UIntTy) (addr : Nat) :
    (w.xorWval x).wvax t addr =
      leValue (fun i => leByte (w.wvax t addr) i ^^^ leByte x (slot addr t + i)) t.sizeof := by
  have hslot := slot_add_sizeof_le addr t
  refine leValue_congr fun i hi => ?_
  rw [wvax, leByte_leValue hi, dif_pos (by omega), dif_pos (by omega)]
  rfl

end AbufWord

/-- `ABUF_WVAL(e) ^= x` on an entry. -/
def AbufEntry.xorWval (e : AbufEntry) (x : Nat) : AbufEntry :=
  { e with wvalue := e.wvalue.xorWval x }

theorem AbufEntry.xorWval_zero (e : AbufEntry) : e.xorWval 0 = e := by
  rw [xorWval, AbufWord.xorWval_zero]

namespace Abuf

/-! ## The corruption functions -/

/-- `ABUF_WVAL(&abuf->buf[i]) ^= x`. -/
def corruptEntry (a : Abuf) (i x : Nat) : Abuf :=
  { a with buf := Function.update a.buf i ((a.buf i).xorWval x) }

/-- `abuf_corrupt_first`. -/
def corruptFirst (a : Abuf) : Abuf :=
  if a.pushed = 0 then a else a.corruptEntry 0 1

/-- `abuf_corrupt_random`, for the result of `rand()`. -/
def corruptRandom (rand : Nat) (a : Abuf) : Abuf :=
  if a.pushed = 0 then a else a.corruptEntry (rand % a.pushed) 0xDEADBEEF

/-- `abuf_corrupt_last`. -/
def corruptLast (a : Abuf) : Abuf :=
  if a.pushed = 0 then a else a.corruptEntry (a.pushed - 1) 0xFF

/-- The loop of `abuf_corrupt_multiple` at entry `i`, with as many turns left as `count` is
below 3. -/
def corruptLoop : Nat → Nat → Nat → Abuf → Abuf
  | 0, _, _, a => a
  | left + 1, i, count, a =>
      if i < a.pushed then corruptLoop left (i + 2) (count + 1) (a.corruptEntry i (1 <<< count))
      else a

/-- `abuf_corrupt_multiple`. -/
def corruptMultiple (a : Abuf) : Abuf :=
  if a.pushed < 2 then a else corruptLoop 3 0 0 a

/-! ## Flipped words -/

/-- The log with an exclusive or on the word of each entry. -/
def flip (mask : Nat → Nat) (a : Abuf) : Abuf :=
  { a with buf := fun i => (a.buf i).xorWval (mask i) }

section Flip

variable {a : Abuf} {mask : Nat → Nat} {i x : Nat}

theorem flip_of_zero (h : ∀ i, mask i = 0) : a.flip mask = a := by
  refine Abuf.ext (funext fun i => ?_) rfl rfl rfl
  show (a.buf i).xorWval (mask i) = a.buf i
  rw [h i, AbufEntry.xorWval_zero]

theorem corruptEntry_eq_flip : a.corruptEntry i x = a.flip fun j => if j = i then x else 0 := by
  refine Abuf.ext (funext fun j => ?_) rfl rfl rfl
  show Function.update a.buf i _ j = (a.buf j).xorWval (if j = i then x else 0)
  split
  · next hj => rw [hj, Function.update_self]
  · next hj => rw [Function.update_of_ne hj, AbufEntry.xorWval_zero]

/-- The loop flips one bit in every other entry. -/
theorem corruptLoop_eq_flip (left i count : Nat) (a : Abuf) :
    corruptLoop left i count a = a.flip fun j =>
      if i ≤ j ∧ j < i + 2 * left ∧ (j - i) % 2 = 0 ∧ j < a.pushed then 1 <<< (count + (j - i) / 2)
      else 0 := by
  induction left generalizing i count a with
  | zero => exact (flip_of_zero fun j => if_neg (by omega)).symm
  | succ left ih =>
    rw [corruptLoop]
    split
    · next hi =>
      rw [ih]
      refine Abuf.ext (funext fun j => ?_) rfl rfl rfl
      show (Function.update a.buf i _ j).xorWval _ = (a.buf j).xorWval _
      beta_reduce
      by_cases hj : j = i
      · rw [if_neg (by omega), AbufEntry.xorWval_zero, hj, Function.update_self,
          if_pos ⟨by omega, by omega, by simp, hi⟩, Nat.sub_self, Nat.zero_div, Nat.add_zero]
      · rw [Function.update_of_ne hj]
        congr 1
        have hiff : (i + 2 ≤ j ∧ j < i + 2 + 2 * left ∧ (j - (i + 2)) % 2 = 0 ∧ j < a.pushed) ↔
            i ≤ j ∧ j < i + 2 * (left + 1) ∧ (j - i) % 2 = 0 ∧ j < a.pushed := by omega
        refine if_ctx_congr hiff (fun h => ?_) fun _ => rfl
        rw [show count + 1 + (j - (i + 2)) / 2 = count + (j - i) / 2 by omega]
    · next hi => exact (flip_of_zero fun j => if_neg (by omega)).symm

end Flip

/-! ## Corruption as a change of the writes -/

end Abuf

/-- The first byte of the slot of a write: the union is divided into slots of its width. -/
def slotOf (w : Write) : Nat := w.addr % 8 / w.size * w.size

/-- The write that an entry for `w` stands for after an exclusive or on its word. -/
def flipWrite (x : Nat) (w : Write) : Write where
  addr := w.addr
  size := w.size
  val := leValue (fun i => leByte w.val i ^^^ leByte x (slotOf w + i)) w.size
  val_lt := leValue_lt _ _

/-- The writes of a log with flipped words. -/
def flipWrites (mask : Nat → Nat) (ws : List Write) : List Write :=
  ws.mapIdx fun i w => flipWrite (mask i) w

/-- The exclusive or changes a bit of the slot. -/
def Reaches (x : Nat) (w : Write) : Prop := ∃ k < w.size, leByte x (slotOf w + k) ≠ 0

section FlipWrites

variable {ws : List Write} {w : Write} {mask : Nat → Nat} {x i : Nat}

theorem slot_eq {w : Write} {t : UIntTy} (h : UIntTy.ofSize? w.size = some t) :
    AbufWord.slot w.addr t = slotOf w := by
  have hsize := UIntTy.sizeof_of_ofSize? h
  have hmask : w.addr &&& 7 = w.addr % 8 := Nat.and_two_pow_sub_one_eq_mod w.addr 3
  rw [AbufWord.slot, slotOf, pickMask, hmask, ← hsize]
  cases t <;> simp only [UIntTy.sizeof, Nat.shiftRight_eq_div_pow]
  -- the one slot of `uint64_t`
  omega

theorem xor_eq_self_iff (u v : UInt8) : u ^^^ v = u ↔ v = 0 := by
  constructor
  · intro h
    rw [← UInt8.zero_xor (a := v), ← UInt8.xor_self (a := u), UInt8.xor_assoc, h, UInt8.xor_self]
  · rintro rfl
    exact UInt8.xor_zero

/-- A write keeps its value exactly when no bit of its slot is flipped. -/
theorem flipWrite_val_eq_iff : (flipWrite x w).val = w.val ↔ ¬ Reaches x w := by
  have hval : w.val = leValue (leByte w.val) w.size := by
    rw [leValue_leByte, Nat.mod_eq_of_lt w.val_lt]
  rw [Reaches, hval]
  show leValue _ w.size = _ ↔ _
  rw [leValue_eq_iff]
  push Not
  refine forall₂_congr fun k hk => ?_
  rw [xor_eq_self_iff]

@[simp] theorem length_flipWrites : (flipWrites mask ws).length = ws.length := List.length_mapIdx

theorem getElem_flipWrites (hi : i < ws.length) (hi' : i < (flipWrites mask ws).length) :
    (flipWrites mask ws)[i] = flipWrite (mask i) ws[i] := List.getElem_mapIdx

theorem shapes_flipWrites : shapes (flipWrites mask ws) = shapes ws :=
  shapes_eq_iff.mpr ⟨length_flipWrites, fun i hi hi' => by
    rw [getElem_flipWrites hi hi']
    exact ⟨rfl, rfl⟩⟩

theorem Abuf.Sized.flipWrites (h : Abuf.Sized ws) : Abuf.Sized (flipWrites mask ws) := by
  intro w hw
  obtain ⟨i, hi, rfl⟩ := List.mem_iff_getElem.mp hw
  have hi' : i < ws.length := by rwa [length_flipWrites] at hi
  rw [getElem_flipWrites hi' hi]
  exact h ws[i] (List.getElem_mem hi')

/-- A flipped log holds the flipped writes. -/
theorem Abuf.Holds.flip {a : Abuf} (h : a.Holds ws) (hsized : Abuf.Sized ws) :
    (a.flip mask).Holds (flipWrites mask ws) where
  pushed := by rw [length_flipWrites]; exact h.pushed
  entry i hi := by
    have hi' : i < ws.length := by rwa [length_flipWrites] at hi
    rw [getElem_flipWrites hi' hi]
    have hentry := h.entry i hi'
    obtain ⟨t, ht⟩ := Option.isSome_iff_exists.mp (hsized _ (List.getElem_mem hi'))
    refine ⟨hentry.addr, hentry.size, ?_⟩
    have htype : UIntTy.ofSize? (a.buf i).size = some t := by rw [hentry.size]; exact ht
    have hval : (a.buf i).wvalue.wvax t ws[i].addr = ws[i].val := by
      rw [← hentry.addr, ← hentry.val]
      exact (AbufEntry.val_of_ofSize? htype).symm
    rw [AbufEntry.val_of_ofSize? (e := (a.flip mask).buf i) htype]
    show ((a.buf i).wvalue.xorWval (mask i)).wvax t (a.buf i).addr = _
    rw [AbufWord.wvax_xorWval, hentry.addr, hval, slot_eq ht, UIntTy.sizeof_of_ofSize? ht]
    rfl

theorem duplicated_flipWrites : Duplicated (flipWrites mask ws) i ↔ Duplicated ws i := by
  simp only [Duplicated, length_flipWrites]
  refine exists_congr fun j => exists_congr fun hi => exists_congr fun hj => and_congr_right fun _ => ?_
  rw [getElem_flipWrites hi, getElem_flipWrites hj]
  rfl

end FlipWrites

end LibSei
