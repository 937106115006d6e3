-- SUMMARY: The size classes of the heap: the rounding to powers of two, and the requests whose class is in the table of lists.
import LibSei.Properties.HeapBlocks

/-!
# Size classes

`heap_malloc` checks the size that is asked for, and the table of lists is made for that size. The
class is the one of the block with its header, which can be the next one.
-/

namespace LibSei

open Memory Control

/-! ## Rounding -/

/-- The rounded value is the least power of two that is not smaller, and its logarithm is the
exponent. -/
def Rounds (v : UInt64) : Prop :=
  IsLeast {p | (∃ k, p = 2 ^ k) ∧ v.toNat ≤ p} (upperPowerOfTwo v).toNat ∧
    (upperPowerOfTwo v).toNat = 2 ^ intLog2 (upperPowerOfTwo v)

theorem rounds {v : UInt64} (hpos : 1 ≤ v.toNat) (hle : v.toNat ≤ 2 ^ 63) : Rounds v := by
  have hpow := upperPowerOfTwo_spec hpos hle
  refine ⟨⟨⟨⟨_, hpow⟩, ?_⟩, ?_⟩, ?_⟩
  · rw [hpow]
    exact Nat.le_pow_clog (by decide) _
  · rintro p ⟨⟨k, rfl⟩, hk⟩
    rw [hpow]
    exact Nat.pow_le_pow_right (by decide) ((Nat.clog_le_iff_le_pow (by decide)).mpr hk)
  · rw [intLog2_of_two_pow hpow, hpow]

namespace Heap

variable {b : Build} {h : Heap} {size : UInt64} {fresh : Nat}

/-- The size that is recorded for a new block passes the check of `heap_free` for the same
requests. -/
theorem newHeader_le_iff (hsize : size ≤ allocMaxSize) :
    newHeader size ≤ allocMaxSize ↔ Admitted size := by
  rw [le_allocMaxSize_iff, newHeader_toNat hsize, Nat.pow_le_pow_iff_right (by decide),
    Nat.clog_le_iff_le_pow (by decide), admitted_iff]

/-- For the other requests `heap_malloc` reads behind the table. -/
theorem malloc_of_not_admitted (hsize : size ≤ allocMaxSize) (hnot : ¬ Admitted size) :
    h.malloc b size fresh = .error (.outOfBounds "heap->free_list[log2]") := by
  have hclass : ¬ intLog2 (upperPowerOfTwo (size + sizeofAllocation)) < freeListLength :=
    fun hlt => hnot ((classOf_lt_iff hsize).mp hlt)
  rw [malloc, Build.assert_of hsize, ok_bind]
  simp only [inBounds, require_of_not hclass]
  rfl

end Heap

namespace HeapRun

open Heap

/-! ## Runs -/

/-- `heap_free` accepts the blocks in use. -/
def Accepted (t : HeapRun) : Prop :=
  ∀ l ∈ t.live, (t.heap.allocation (l.start - sizeofAllocation.toNat)).size ≤ allocMaxSize

/-- Along the calls every block in use is accepted, and no call goes beyond the table of lists. -/
def InTable (b : Build) : List Call → HeapRun → Prop
  | [], t => t.Accepted
  | call :: calls, t => t.Accepted ∧ call.run b t ≠ .error (.outOfBounds "heap->free_list[log2]") ∧
      ∀ t', call.run b t = .ok (some t') → InTable b calls t'

/-- The call is legal and its size passes the check of `heap_malloc`. -/
def Call.Checked : Call → HeapRun → Prop := Call.Legal (· ≤ allocMaxSize)

/-- The calls are checked when they are made. -/
def Checked : Build → List Call → HeapRun → Prop := Along Call.Checked

/-- Requests leave room for the header. -/
def Call.Small : Call → Prop
  | .malloc size _ => Admitted size
  | .free _ => True

/-- The requests that are made leave room for the header. -/
def Small : Build → List Call → HeapRun → Prop := Along fun call _ => call.Small

variable {b : Build} {t t' : HeapRun} {chains : Nat → List Nat} {call : Call} {calls : List Call}

theorem Kept.accepted (h : t.Kept chains) : t.Accepted := by
  intro l hl
  obtain ⟨r, hr, hlr, -⟩ := h.live l hl
  rw [hlr]
  exact h.size_le hr

theorem Call.Checked.proper (hchecked : call.Checked t) (hsmall : call.Small) : call.Proper t := by
  cases call with
  | malloc size fresh => exact ⟨hsmall, hchecked.2⟩
  | free ptr => exact hchecked

/-- A request that leaves no room for the header goes beyond the table. -/
theorem Call.Checked.small (hchecked : call.Checked t)
    (hin : call.run b t ≠ .error (.outOfBounds "heap->free_list[log2]")) : call.Small := by
  cases call with
  | malloc size fresh =>
    by_contra hnot
    refine hin ?_
    rw [Call.run, malloc_of_not_admitted hchecked.1 hnot]
    rfl
  | free ptr => trivial

theorem Kept.inTable_iff (h : t.Kept chains) (hchecked : Checked b calls t) :
    InTable b calls t ↔ Small b calls t := by
  induction calls generalizing t chains with
  | nil => exact ⟨fun _ => trivial, fun _ => h.accepted⟩
  | cons call calls ih =>
    obtain ⟨hcall, hrest⟩ := hchecked
    constructor
    · rintro ⟨-, hin, htable⟩
      have hsmall := hcall.small hin
      obtain ⟨-, -, hkept⟩ := h.run (b := b) (hcall.proper hsmall)
      refine ⟨hsmall, fun t' hrun => ?_⟩
      obtain ⟨⟨chains', hkept'⟩, -⟩ := hkept t' hrun
      exact (ih hkept' (hrest t' hrun)).mp (htable t' hrun)
    · rintro ⟨hsmall, hsmalls⟩
      obtain ⟨-, hin, hkept⟩ := h.run (b := b) (hcall.proper hsmall)
      refine ⟨h.accepted, hin, fun t' hrun => ?_⟩
      obtain ⟨⟨chains', hkept'⟩, -⟩ := hkept t' hrun
      exact (ih hkept' (hrest t' hrun)).mpr (hsmalls t' hrun)

/-- A request that passes the check of `heap_malloc` has its class in the table, and its block a
header that `heap_free` accepts, exactly when it leaves room for the header; and along every run the
table is left exactly by a request that does not. The rounding is right for all values it can
represent. -/
theorem sizeClasses_iff (b : Build) (arena : UInt32) (data : Nat) (room : Bool) (heap : Heap)
    (hinit : init b arena data room = .ok heap) (calls : List Call)
    (hchecked : Checked b calls ⟨heap, [], []⟩) :
    (∀ size ≤ allocMaxSize,
      (classOf size < freeListLength ↔ size ≤ allocMaxSize - sizeofAllocation) ∧
      (newHeader size ≤ allocMaxSize ↔ size ≤ allocMaxSize - sizeofAllocation)) ∧
    (InTable b calls ⟨heap, [], []⟩ ↔ Small b calls ⟨heap, [], []⟩) ∧
    ∀ v : UInt64, 1 ≤ v.toNat → v.toNat ≤ 2 ^ 63 → Rounds v :=
  ⟨fun _ hsize => ⟨classOf_lt_iff hsize, newHeader_le_iff hsize⟩,
    (kept_init hinit).1.inTable_iff hchecked, fun _ => rounds⟩

/-- In an arena of 4 MB the largest block with room for its header is obtained and freed. -/
theorem sizeClasses_largest : ∃ heap, init (Build.twoWay false false) 4194304 4096 true = .ok heap ∧
    InTable (Build.twoWay false false) [.malloc 1048560 0, .free 4112] ⟨heap, [], []⟩ ∧
    classOf 1048560 < freeListLength ∧ Rounds 1048577 := by
  have hchecked : Checked (Build.twoWay false false) [.malloc 1048560 0, .free 4112]
      ⟨⟨4194304, 0, fun _ => 0, 4096, fun _ => ⟨0, 0⟩⟩, [], []⟩ := by
    refine ⟨⟨by decide, fun hsize => absurd hsize (by decide)⟩, Call.forall_of_run rfl ?_⟩
    exact ⟨show 4112 ∈ [4112] by decide, fun _ _ => trivial⟩
  obtain ⟨hsizes, htable, hrounds⟩ :=
    sizeClasses_iff (Build.twoWay false false) 4194304 4096 true _ rfl _ hchecked
  refine ⟨_, rfl, htable.mpr ?_, (hsizes 1048560 (by decide)).1.mpr (by decide),
    hrounds 1048577 (by decide) (by decide)⟩
  exact ⟨show Admitted 1048560 by decide, fun _ _ => ⟨trivial, fun _ _ => trivial⟩⟩

/-- A request for one byte more passes the check of `heap_malloc`, and its class is the first behind
the table, with an arena and without. -/
theorem sizeClasses_beyond : (1048561 : UInt64) ≤ allocMaxSize ∧ classOf 1048561 = 21 ∧
    freeListLength = 21 ∧ ¬ newHeader 1048561 ≤ allocMaxSize ∧
    (∃ heap, init (Build.twoWay false false) 4194304 4096 true = .ok heap ∧
      heap.malloc (Build.twoWay false false) 1048561 0 =
        .error (.outOfBounds "heap->free_list[log2]")) ∧
    ∃ heap, init (Build.twoWay false false) 0 4096 true = .ok heap ∧
      heap.malloc (Build.twoWay false false) 1048561 8192 =
        .error (.outOfBounds "heap->free_list[log2]") :=
  ⟨by decide, by decide +kernel, freeListLength_eq, by decide +kernel, ⟨_, rfl, rfl⟩, ⟨_, rfl, rfl⟩⟩

end HeapRun

end LibSei
