-- SUMMARY: The append-only log `abuf`: its entries, the value slot of an entry, pushing, cleaning and rewinding.
import LibSei.Machine.Exec
import LibSei.Memory.Writes

/-!
# The append-only log

`abuf` records one entry per logged write: the address, the width, and a 64-bit
word that holds the value in a slot picked from the address. The array grows by
doubling, as long as its capacity is an `int`; whatever lies in it at or above `pushed`
stays there and is overwritten only by later pushes.
-/

namespace LibSei

open Memory Control

/-! ## Types -/

/-- The types the push, pop, swap and restore macros are instantiated with. -/
inductive UIntTy where
  | uint8 | uint16 | uint32 | uint64
  deriving DecidableEq, Repr

namespace UIntTy

def sizeof : UIntTy → Nat
  | uint8 => 1
  | uint16 => 2
  | uint32 => 4
  | uint64 => 8

/-- The case a `switch (e->size)` selects; `none` is its `default`. -/
def ofSize? : Nat → Option UIntTy
  | 1 => some uint8
  | 2 => some uint16
  | 4 => some uint32
  | 8 => some uint64
  | _ => none

@[simp] theorem ofSize?_sizeof (t : UIntTy) : ofSize? t.sizeof = some t := by
  cases t <;> rfl

theorem sizeof_of_ofSize? {n : Nat} {t : UIntTy} (h : ofSize? n = some t) : t.sizeof = n := by
  unfold ofSize? at h
  split at h <;> cases h <;> rfl

end UIntTy

/-! ## The value slot -/

/-- `abuf_word_t`: a union of four arrays over the same eight bytes. -/
abbrev AbufWord := Fin 8 → UInt8

/-- `ABUF_PICKMASK`: the index into the array of the type. -/
def pickMask (addr : Nat) (t : UIntTy) : Nat := (addr &&& 7) >>> (t.sizeof >>> 1)

namespace AbufWord

/-- The first byte of `value[ABUF_PICKMASK(addr, type)]`. -/
def slot (addr : Nat) (t : UIntTy) : Nat := pickMask addr t * t.sizeof

/-- Reading `ABUF_WVAX`. -/
def wvax (w : AbufWord) (t : UIntTy) (addr : Nat) : Nat :=
  leValue (fun i => if h : slot addr t + i < 8 then w ⟨slot addr t + i, h⟩ else 0) t.sizeof

/-- Assigning to `ABUF_WVAX`. -/
def setWvax (w : AbufWord) (t : UIntTy) (addr v : Nat) : AbufWord :=
  fun j => if slot addr t ≤ j ∧ j < slot addr t + t.sizeof then leByte v (j - slot addr t) else w j

/-- `ABUF_WVAL(e) = 0`. -/
def zero : AbufWord := fun _ => 0

/-- The picked element lies inside the union for every address, aligned or not. -/
theorem slot_add_sizeof_le (addr : Nat) (t : UIntTy) : slot addr t + t.sizeof ≤ 8 := by
  have hmask : addr &&& 7 = addr % 8 := Nat.and_two_pow_sub_one_eq_mod addr 3
  have hlt : addr % 8 < 8 := Nat.mod_lt _ (by decide)
  cases t <;> simp only [slot, pickMask, hmask, UIntTy.sizeof, Nat.shiftRight_eq_div_pow] <;> omega

/-- The slot an assignment fills is the slot a read with the same type and address picks. -/
@[simp] theorem wvax_setWvax (w : AbufWord) (t : UIntTy) (addr v : Nat) :
    (w.setWvax t addr v).wvax t addr = v % 256 ^ t.sizeof := by
  have hslot := slot_add_sizeof_le addr t
  rw [wvax, ← leValue_leByte]
  apply leValue_congr
  intro i hi
  rw [dif_pos (by omega), setWvax, if_pos ⟨by simp, by simpa using hi⟩]
  simp

end AbufWord

/-! ## Entries -/

/-- `abuf_entry_t`. -/
structure AbufEntry where
  wvalue : AbufWord
  size : Nat
  addr : Nat

namespace AbufEntry

/-- An entry of a zeroed array. -/
def zero : AbufEntry := ⟨AbufWord.zero, 0, 0⟩

/-- `ABUF_WVAX(e, type, e->addr)`. -/
def wvax (e : AbufEntry) (t : UIntTy) : Nat := e.wvalue.wvax t e.addr

/-- `ABUF_WVAX(e, type, e->addr) = v`. -/
def setWvax (e : AbufEntry) (t : UIntTy) (v : Nat) : AbufEntry :=
  { e with wvalue := e.wvalue.setWvax t e.addr v }

/-- The value of an entry, read with the type its size selects. -/
def val (e : AbufEntry) : Nat := (UIntTy.ofSize? e.size).elim 0 e.wvax

/-- The entry records the location and the value of a write. -/
structure Holds (e : AbufEntry) (w : Write) : Prop where
  addr : e.addr = w.addr
  size : e.size = w.size
  val : e.val = w.val

theorem val_of_ofSize? {e : AbufEntry} {t : UIntTy} (h : UIntTy.ofSize? e.size = some t) :
    e.val = e.wvax t := by
  rw [val, h]
  rfl

@[simp] theorem wvax_setWvax (e : AbufEntry) (t : UIntTy) (v : Nat) :
    (e.setWvax t v).wvax t = v % 256 ^ t.sizeof := AbufWord.wvax_setWvax _ _ _ _

theorem val_setWvax {e : AbufEntry} {t : UIntTy} (h : UIntTy.ofSize? e.size = some t) (v : Nat) :
    (e.setWvax t v).val = v % 256 ^ t.sizeof := by
  rw [val_of_ofSize? (e := e.setWvax t v) h, wvax_setWvax]

/-- The assignments of `ABUF_PUSH` to the entry it takes. -/
def fill (e : AbufEntry) (t : UIntTy) (addr value : Nat) : AbufEntry :=
  { addr := addr
    size := t.sizeof
    wvalue := (if t.sizeof ≠ 8 then AbufWord.zero else e.wvalue).setWvax t addr value }

end AbufEntry

/-! ## The log -/

/-- `struct abuf`. `buf` gives the contents of the array and of the memory behind
it, which a later `realloc` may hand out unchanged; only indices below `maxSize`
may be accessed. -/
@[ext] structure Abuf where
  buf : Nat → AbufEntry
  maxSize : Nat
  pushed : Nat
  poped : Nat
  maxSize_pos : 0 < maxSize
  pushed_le : pushed ≤ maxSize

namespace Abuf

def init (maxSize : Nat) (h : 0 < maxSize) : Abuf :=
  ⟨fun _ => AbufEntry.zero, maxSize, 0, 0, h, Nat.zero_le _⟩

def clean (a : Abuf) : Abuf := { a with pushed := 0, poped := 0, pushed_le := Nat.zero_le _ }

def rewind (a : Abuf) : Abuf := { a with poped := 0 }

/-- `abuf_size`. -/
def size (a : Abuf) : Int := a.pushed - a.poped

/-- `&abuf->buf[i]`. -/
def entryAt (a : Abuf) (i : Nat) : Exec AbufEntry := do
  inBounds (i < a.maxSize) "abuf->buf"
  return a.buf i

theorem entryAt_ne_error {a : Abuf} {i : Nat} {e : Stop} (he : e ≠ .outOfBounds "abuf->buf") :
    a.entryAt i ≠ .error e :=
  bind_ne_error (require_ne_error he) fun _ _ => ok_ne_error _ _

/-! ## Pushing -/

/-- `sizeof(abuf_entry_t)`. -/
def sizeofEntry : Nat := 32

/-- `abuf->max_size *= 2` on an `int`. -/
def doubled (maxSize : Nat) : Int := Int.bmod (maxSize * 2) (2 ^ 32)

/-- The argument of `realloc`, a `size_t`. -/
def bytes (maxSize : Int) : Nat := (maxSize * sizeofEntry % 2 ^ 64).toNat

/-- `realloc` returns a block for twice the capacity: it does not run out of memory, but no block
has more than `PTRDIFF_MAX` bytes. -/
def Granted (maxSize : Nat) : Prop := bytes (doubled maxSize) < 2 ^ 63

instance (maxSize : Nat) : Decidable (Granted maxSize) := inferInstanceAs (Decidable (_ < _))

/-- There is a place for one more entry, or the array can be doubled. -/
def HasRoom (a : Abuf) : Prop := a.pushed = a.maxSize → Granted a.maxSize

instance (a : Abuf) : Decidable a.HasRoom := inferInstanceAs (Decidable (_ → _))

/-- The log with a free place: a full array is doubled. -/
def grow (a : Abuf) : Abuf :=
  if a.pushed = a.maxSize then
    { a with
      maxSize := a.maxSize * 2
      maxSize_pos := Nat.mul_pos a.maxSize_pos (by decide)
      pushed_le := Nat.le_trans a.pushed_le (Nat.le_mul_of_pos_right _ (by decide)) }
  else a

@[simp] theorem grow_buf (a : Abuf) : a.grow.buf = a.buf := by
  unfold grow
  split <;> rfl

@[simp] theorem grow_pushed (a : Abuf) : a.grow.pushed = a.pushed := by
  unfold grow
  split <;> rfl

@[simp] theorem grow_poped (a : Abuf) : a.grow.poped = a.poped := by
  unfold grow
  split <;> rfl

theorem pushed_lt_grow (a : Abuf) : a.pushed < a.grow.maxSize := by
  have := a.maxSize_pos
  have := a.pushed_le
  unfold grow
  split
  · simp only
    omega
  · omega

theorem grow_of_lt {a : Abuf} (h : a.pushed < a.maxSize) : a.grow = a := if_neg h.ne

/-- `ABUF_CHECK_SIZE`. -/
def checkSize (a : Abuf) : Exec Abuf := do
  failIfn a.HasRoom "no space left"
  return a.grow

/-- What `ABUF_PUSH` leaves of a log with room: an entry is taken and filled. -/
def push (a : Abuf) (t : UIntTy) (addr value : Nat) : Abuf :=
  { buf := Function.update a.buf a.pushed ((a.buf a.pushed).fill t addr value)
    maxSize := a.grow.maxSize
    pushed := a.pushed + 1
    poped := a.poped
    maxSize_pos := a.grow.maxSize_pos
    pushed_le := a.pushed_lt_grow }

/-- `ABUF_PUSH`. -/
def pushType (a : Abuf) (t : UIntTy) (addr value : Nat) : Exec Abuf := do
  let a ← a.checkSize
  return a.push t addr value

theorem push_grow (a : Abuf) (t : UIntTy) (addr value : Nat) :
    a.grow.push t addr value = a.push t addr value := by
  have hgrow : a.grow.grow = a.grow := grow_of_lt (by rw [grow_pushed]; exact a.pushed_lt_grow)
  ext1 <;> simp [push, hgrow]

/-- A push to a log with room; one to any other log stops the process. -/
theorem pushType_eq (a : Abuf) (t : UIntTy) (addr value : Nat) :
    a.pushType t addr value =
      if a.HasRoom then .ok (a.push t addr value) else .error (.fail "no space left" []) := by
  rw [pushType, checkSize]
  split
  · next hroom =>
    rw [failIfn_of hroom, ok_bind, ← push_grow]
    rfl
  · next hfull =>
    rw [failIfn, require_of_not hfull]
    rfl

theorem pushType_eq_ok {a a' : Abuf} {t : UIntTy} {addr value : Nat} :
    a.pushType t addr value = .ok a' ↔ a.HasRoom ∧ a' = a.push t addr value := by
  rw [pushType_eq]
  split
  · next hroom => simp [hroom, eq_comm]
  · next hfull => simp [hfull]

@[simp] theorem push_pushed (a : Abuf) (t : UIntTy) (addr value : Nat) :
    (a.push t addr value).pushed = a.pushed + 1 := rfl

theorem push_buf_self (a : Abuf) (t : UIntTy) (addr value : Nat) :
    (a.push t addr value).buf a.pushed = (a.buf a.pushed).fill t addr value :=
  Function.update_self _ _ _

/-- A push leaves every other entry of the array as it was. -/
theorem push_buf_of_ne (a : Abuf) (t : UIntTy) (addr value : Nat) {i : Nat} (hi : i ≠ a.pushed) :
    (a.push t addr value).buf i = a.buf i :=
  Function.update_of_ne hi _ _

/-- Only the counters of a rewound log without entries are fixed; the array may be
full of entries of earlier traversals. -/
structure Empty (a : Abuf) : Prop where
  pushed : a.pushed = 0
  poped : a.poped = 0

/-- The log records exactly the writes `ws`, oldest first. -/
structure Holds (a : Abuf) (ws : List Write) : Prop where
  pushed : a.pushed = ws.length
  entry : ∀ i (hi : i < ws.length), (a.buf i).Holds ws[i]

theorem Empty.holds {a : Abuf} (h : a.Empty) : a.Holds [] :=
  ⟨h.pushed, fun i hi => absurd hi (Nat.not_lt_zero i)⟩

theorem fill_holds (e : AbufEntry) (t : UIntTy) (addr value : Nat) (w : Write)
    (haddr : w.addr = addr) (hsize : w.size = t.sizeof) (hval : w.val = value % 256 ^ t.sizeof) :
    (e.fill t addr value).Holds w where
  addr := haddr.symm
  size := hsize.symm
  val := by
    have hty : UIntTy.ofSize? (e.fill t addr value).size = some t := t.ofSize?_sizeof
    rw [AbufEntry.val_of_ofSize? hty, hval]
    exact AbufWord.wvax_setWvax _ _ _ _

/-- A push appends one entry. -/
theorem Holds.push {a : Abuf} {ws : List Write} (h : a.Holds ws) {t : UIntTy}
    {addr value : Nat} {w : Write} (haddr : w.addr = addr) (hsize : w.size = t.sizeof)
    (hval : w.val = value % 256 ^ t.sizeof) :
    (a.push t addr value).Holds (ws ++ [w]) where
  pushed := by simp [h.pushed]
  entry i hi := by
    rcases Nat.lt_or_ge i ws.length with hlt | hge
    · have hne : i ≠ a.pushed := by rw [h.pushed]; omega
      rw [List.getElem_append_left hlt, push_buf_of_ne _ _ _ _ hne]
      exact h.entry i hlt
    · have heq : i = ws.length := by simp at hi; omega
      subst heq
      rw [List.getElem_concat_length rfl, ← h.pushed, push_buf_self]
      exact fill_holds _ t addr value w haddr hsize hval

end Abuf

end LibSei
