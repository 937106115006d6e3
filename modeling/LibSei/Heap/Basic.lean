-- SUMMARY: The heap with size classes: rounding of sizes, allocation from free lists, an arena or the system, and freeing.
import LibSei.Machine.Exec
import LibSei.Memory.Links
import LibSei.Memory.PowersOfTwo

/-!
# The heap

Blocks have sizes that are powers of two, and a block that is freed goes to the list of its size.
A request is served from the list of its size if there is a block in it; otherwise from the arena,
if the heap was made with one, or from the system's `malloc`. Each block begins with a header that
records its size and links it to the next block of a list.
-/

namespace LibSei

open Memory Control Arithmetic

/-! ## Size classes -/

/-- `ALLOC_MAX_SIZE`. -/
def allocMaxSize : UInt64 := 1024 * 1024

/-- `sizeof(allocation_t)`. -/
def sizeofAllocation : UInt64 := 16

/-- `upper_power_of_two`. -/
def upperPowerOfTwo (v : UInt64) : UInt64 :=
  let v := v - 1
  let v := v ||| v >>> 1
  let v := v ||| v >>> 2
  let v := v ||| v >>> 4
  let v := v ||| v >>> 8
  let v := v ||| v >>> 16
  let v := v ||| v >>> 32
  v + 1

/-- The loop of `int_log2`. -/
def intLog2Loop : Nat → UInt64 → Nat → Nat
  | 0, _, r => r
  | fuel + 1, x, r =>
      let x := x >>> 1
      if x ≠ 0 then intLog2Loop fuel x (r + 1) else r

/-- `int_log2`. After 64 shifts nothing is left. -/
def intLog2 (x : UInt64) : Nat := intLog2Loop 64 x 0

/-- The number of size classes, `log2` in `heap_init`. -/
def freeListLength : Nat := intLog2 (upperPowerOfTwo allocMaxSize) + 1

theorem Spread.uint64 {m x : Nat} {v k : UInt64} (h : Spread m x v.toNat) (hk : k.toNat % 64 = m) :
    Spread (2 * m) x (v ||| v >>> k).toNat := by
  rw [UInt64.toNat_or, UInt64.toNat_shiftRight, hk]
  exact h.double

theorem upperPowerOfTwo_spec {v : UInt64} (hpos : 1 ≤ v.toNat) (hle : v.toNat ≤ 2 ^ 63) :
    (upperPowerOfTwo v).toNat = 2 ^ Nat.clog 2 v.toNat := by
  have hpred : (v - 1).toNat = v.toNat - 1 :=
    UInt64.toNat_sub_of_le v 1 (UInt64.le_iff_toNat_le.mpr hpos)
  have hclog : Nat.clog 2 v.toNat ≤ 63 := (Nat.clog_le_iff_le_pow (by decide)).mpr hle
  have hpow : 2 ^ Nat.clog 2 v.toNat ≤ 2 ^ 63 := Nat.pow_le_pow_right (by decide) hclog
  have h1 := Spread.uint64 (k := 1) (spread_one (v - 1).toNat) rfl
  have h2 := Spread.uint64 (k := 2) h1 rfl
  have h4 := Spread.uint64 (k := 4) h2 rfl
  have h8 := Spread.uint64 (k := 8) h4 rfl
  have h16 := Spread.uint64 (k := 16) h8 rfl
  have h32 := Spread.uint64 (k := 32) h16 rfl
  have hbits := h32.eq_two_pow_size (UInt64.toNat_lt _)
  rw [hpred, size_pred_eq_clog hpos] at hbits
  have hone := Nat.one_le_two_pow (n := Nat.clog 2 v.toNat)
  rw [upperPowerOfTwo, UInt64.toNat_add, hbits, UInt64.toNat_one, Nat.sub_add_cancel hone,
    Nat.mod_eq_of_lt (by omega)]

theorem intLog2Loop_spec {fuel : Nat} {x : UInt64} (r : Nat) (hx : x.toNat < 2 ^ fuel) :
    intLog2Loop fuel x r = r + Nat.log2 x.toNat := by
  induction fuel generalizing x r with
  | zero =>
    have hzero : x.toNat = 0 := by omega
    rw [intLog2Loop, hzero]
    rfl
  | succ fuel ih =>
    have hhalf : (x >>> 1).toNat = x.toNat / 2 := by
      rw [UInt64.toNat_shiftRight, Nat.shiftRight_eq_div_pow]
      rfl
    have hne : x >>> 1 ≠ 0 ↔ x.toNat / 2 ≠ 0 := by
      rw [← hhalf, ne_eq, ← UInt64.toNat_inj]
      rfl
    rw [intLog2Loop]
    simp only [hne]
    by_cases hsmall : x.toNat / 2 = 0
    · rw [if_neg (not_not.mpr hsmall), Nat.log2_def, if_neg (by omega)]
      rfl
    · rw [if_pos hsmall, ih (r + 1) (by rw [hhalf]; omega), hhalf]
      conv_rhs => rw [Nat.log2_def, if_pos (by omega)]
      omega

theorem intLog2_of_two_pow {x : UInt64} {k : Nat} (hx : x.toNat = 2 ^ k) : intLog2 x = k := by
  rw [intLog2, intLog2Loop_spec 0 (UInt64.toNat_lt x), hx, Nat.log2_two_pow, Nat.zero_add]

/-! ## Blocks -/

/-- `allocation_t`, without the bytes of the block. -/
structure Allocation where
  size : UInt64
  next : Nat
  deriving DecidableEq

/-- `heap_t`. `data` is the address of the arena, and `allocation` has the header at each address.
Nobody but the heap writes to headers. -/
structure Heap where
  size : Nat
  cursor : Nat
  freeList : Nat → Nat
  data : Nat
  allocation : Nat → Allocation

namespace Heap

/-- The memory of the heap, in `heap_init`. -/
def initMemory (b : Build) (size : UInt32) (data : Nat) : Exec Unit :=
  if size > 0 then do
    b.assert (size.toUInt64 > allocMaxSize) "size > ALLOC_MAX_SIZE"
    require (data ≠ 0) (.fail "out of memory" [])
  else do
    b.assert (data ≠ 0) "heap && \"out of memory\""
    inBounds (data ≠ 0) "heap->free_list"

/-- `heap_init`. `data` is where the arena is, or 0 if there is no memory for the heap, and `room`
says whether there is memory for the lists. -/
def init (b : Build) (size : UInt32) (data : Nat) (room : Bool) : Exec Heap := do
  initMemory b size data
  b.assert (room = true) "heap->free_list"
  inBounds (room = true) "heap->free_list[i]"
  return ⟨size.toNat, 0, fun _ => 0, data, fun _ => ⟨0, 0⟩⟩

/-- The class a request is served from. -/
def classOf (size : UInt64) : Nat := intLog2 (upperPowerOfTwo (size + sizeofAllocation))

/-- `heap->free_list[log2] = a`. -/
def setFreeList (h : Heap) (log2 a : Nat) : Heap :=
  { h with freeList := Function.update h.freeList log2 a }

/-- `a->next = next`. -/
def setNext (h : Heap) (a next : Nat) : Heap :=
  { h with allocation := Function.update h.allocation a { h.allocation a with next := next } }

/-- `a->size = size; a->next = NULL`. -/
def setHeader (h : Heap) (a : Nat) (size : UInt64) : Heap :=
  { h with allocation := Function.update h.allocation a ⟨size, 0⟩ }

/-- The first block of a list is taken off it. -/
def takeFirst (h : Heap) (log2 : Nat) : Heap :=
  let a := h.freeList log2
  (h.setFreeList log2 (h.allocation a).next).setNext a 0

/-- A block at the cursor of the arena. -/
def carve (h : Heap) (pow2Size : UInt64) : Heap :=
  let a := h.data + h.cursor
  let h : Heap := { h with cursor := h.cursor + pow2Size.toNat }
  h.setHeader a pow2Size

/-- `heap_malloc`. `fresh` is what `malloc` returns if it is called. -/
def malloc (b : Build) (h : Heap) (size : UInt64) (fresh : Nat) : Exec (Nat × Heap) := do
  b.assert (size ≤ allocMaxSize) "size <= ALLOC_MAX_SIZE"
  let tsize := size + sizeofAllocation
  let pow2Size := upperPowerOfTwo tsize
  let log2 := intLog2 pow2Size
  inBounds (log2 < freeListLength) "heap->free_list[log2]"
  if h.freeList log2 ≠ 0 then
    return (h.freeList log2 + sizeofAllocation.toNat, h.takeFirst log2)
  else if h.size > 0 then do
    b.assert (h.cursor + pow2Size.toNat < h.size)
      "heap->cursor + pow_2_size < heap->size && \"out of memory\""
    if h.cursor + pow2Size.toNat ≥ h.size then return (0, h)
    else return (h.data + h.cursor + sizeofAllocation.toNat, h.carve pow2Size)
  else do
    b.assert (fresh ≠ 0) "a && \"out of memory\""
    inBounds (fresh ≠ 0) "a->size"
    return (fresh + sizeofAllocation.toNat, h.setHeader fresh pow2Size)

/-- `heap_in`. -/
def heapIn (h : Heap) (ptr : Nat) : Prop := h.size = 0 ∨ (h.data ≤ ptr ∧ ptr < h.data + h.size)

instance (h : Heap) (ptr : Nat) : Decidable (h.heapIn ptr) := inferInstanceAs (Decidable (_ ∨ _))

/-- `heap_free`, or `none` if the end of the list is not reached in `fuel` steps. -/
def free (b : Build) (fuel : Nat) (h : Heap) (ptr : Nat) : Exec (Option Heap) := do
  b.assert (h.size > 0 → h.heapIn ptr) "heap_in(heap, ptr) && \"freeing data not in heap\""
  let a := ptr - sizeofAllocation.toNat
  b.assert ((h.allocation a).size ≤ allocMaxSize) "a->size <= ALLOC_MAX_SIZE"
  let log2 := intLog2 (h.allocation a).size
  inBounds (log2 < freeListLength) "heap->free_list[log2]"
  if h.freeList log2 = 0 then return some (h.setFreeList log2 a)
  else
    let tail := lastLink 0 (fun a => (h.allocation a).next) fuel (h.freeList log2)
    return tail.map fun tail => h.setNext tail a

end Heap

end LibSei
