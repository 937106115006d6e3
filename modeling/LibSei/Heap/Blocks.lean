-- SUMMARY: Runs of the heap with a record of the memory it obtained and of the blocks in use: each block is in use or in the list of its class.
import LibSei.Heap.Basic

/-!
# The blocks of a heap

A run of the heap is followed together with the memory obtained for its blocks, header included,
and the blocks that are in use. Every block obtained is either in use or in the list of its class,
whatever sizes are asked for.
-/

namespace LibSei

open Memory Control Arithmetic

/-- A stretch of memory. -/
structure Region where
  start : Nat
  len : Nat
  deriving DecidableEq

namespace Region

/-- The regions do not overlap. -/
def Disjoint (r s : Region) : Prop := r.start + r.len ≤ s.start ∨ s.start + s.len ≤ r.start

instance (r s : Region) : Decidable (r.Disjoint s) := inferInstanceAs (Decidable (_ ∨ _))

instance : Std.Symm Disjoint := ⟨fun _ _ h => Or.symm h⟩

end Region

namespace Heap

variable {b : Build} {h : Heap} {a c : Nat} {size : UInt64}

/-! ## Headers -/

/-- The links between the blocks. -/
def next (h : Heap) (a : Nat) : Nat := (h.allocation a).next

/-- The class of the size recorded in a header. -/
def blockClass (h : Heap) (a : Nat) : Nat := intLog2 (h.allocation a).size

theorem next_setNext (x : Nat) : (h.setNext a x).next = Function.update h.next a x := by
  funext a'
  by_cases ha : a' = a
  · subst ha
    simp [next, setNext]
  · simp [next, setNext, ha]

theorem size_setNext (x a' : Nat) :
    ((h.setNext a x).allocation a').size = (h.allocation a').size := by
  by_cases ha : a' = a
  · subst ha
    simp [setNext]
  · simp [setNext, ha]

theorem blockClass_setNext (x : Nat) : (h.setNext a x).blockClass = h.blockClass := by
  funext a'
  rw [blockClass, size_setNext, blockClass]

theorem allocation_setHeader :
    (h.setHeader a size).allocation = Function.update h.allocation a ⟨size, 0⟩ := rfl

theorem next_setHeader : (h.setHeader a size).next = Function.update h.next a 0 := by
  funext a'
  by_cases ha : a' = a
  · subst ha
    simp [next, setHeader]
  · simp [next, setHeader, ha]

theorem blockClass_setHeader :
    (h.setHeader a size).blockClass = Function.update h.blockClass a (intLog2 size) := by
  funext a'
  by_cases ha : a' = a
  · subst ha
    simp [blockClass, setHeader]
  · simp [blockClass, setHeader, ha]

/-! ## Requests -/

/-- The sizes for which block and header together have at most `ALLOC_MAX_SIZE` bytes. -/
def Admitted (size : UInt64) : Prop := size ≤ allocMaxSize - sizeofAllocation

instance : Decidable (Admitted size) := inferInstanceAs (Decidable (_ ≤ _))

theorem freeListLength_eq : freeListLength = 21 := by decide +kernel

theorem le_allocMaxSize_iff : size ≤ allocMaxSize ↔ size.toNat ≤ 2 ^ 20 := by
  have hmax : allocMaxSize.toNat = 2 ^ 20 := by decide +kernel
  rw [UInt64.le_iff_toNat_le, hmax]

theorem admitted_iff : Admitted size ↔ size.toNat + 16 ≤ 2 ^ 20 := by
  have hmax : (allocMaxSize - sizeofAllocation).toNat = 2 ^ 20 - 16 := by decide +kernel
  rw [Admitted, UInt64.le_iff_toNat_le, hmax]
  omega

/-- Admitted sizes pass the check of `heap_malloc`. -/
theorem Admitted.le_allocMaxSize (hsize : Admitted size) : size ≤ allocMaxSize := by
  have hle := admitted_iff.mp hsize
  exact le_allocMaxSize_iff.mpr (by omega)

/-- The header of a new block records the rounded size. -/
def newHeader (size : UInt64) : UInt64 := LibSei.upperPowerOfTwo (size + sizeofAllocation)

theorem newHeader_toNat (hsize : size ≤ allocMaxSize) :
    (newHeader size).toNat = 2 ^ Nat.clog 2 (size.toNat + 16) := by
  have hle := le_allocMaxSize_iff.mp hsize
  have hadd : (size + sizeofAllocation).toNat = size.toNat + 16 := by
    rw [UInt64.toNat_add]
    exact Nat.mod_eq_of_lt (by show size.toNat + 16 < _; omega)
  rw [newHeader, upperPowerOfTwo_spec (by omega) (by omega), hadd]

theorem classOf_eq (hsize : size ≤ allocMaxSize) : classOf size = Nat.clog 2 (size.toNat + 16) :=
  intLog2_of_two_pow (newHeader_toNat hsize)

/-- The table has a list for the class of a request exactly when block and header together are not
larger than `ALLOC_MAX_SIZE`. -/
theorem classOf_lt_iff (hsize : size ≤ allocMaxSize) :
    classOf size < freeListLength ↔ Admitted size := by
  rw [classOf_eq hsize, freeListLength_eq, Nat.lt_succ_iff, Nat.clog_le_iff_le_pow (by decide),
    admitted_iff]

theorem Admitted.classOf_lt (hsize : Admitted size) : classOf size < freeListLength :=
  (classOf_lt_iff hsize.le_allocMaxSize).mpr hsize

theorem Admitted.upperPowerOfTwo (hsize : Admitted size) :
    (upperPowerOfTwo (size + sizeofAllocation)).toNat = 2 ^ classOf size := by
  rw [classOf_eq hsize.le_allocMaxSize]
  exact newHeader_toNat hsize.le_allocMaxSize

/-- Block and header fit into the rounded size. -/
theorem Admitted.le_two_pow (hsize : Admitted size) : size.toNat + 16 ≤ 2 ^ classOf size := by
  rw [classOf_eq hsize.le_allocMaxSize]
  exact Nat.le_pow_clog (by decide) _

/-- What `heap_malloc` does for an admitted size. -/
theorem Admitted.malloc_eq (hsize : Admitted size) (fresh : Nat) :
    h.malloc b size fresh =
      if h.freeList (classOf size) ≠ 0 then
        .ok (h.freeList (classOf size) + 16, h.takeFirst (classOf size))
      else if h.size > 0 then do
        b.assert (h.cursor + 2 ^ classOf size < h.size)
          "heap->cursor + pow_2_size < heap->size && \"out of memory\""
        if h.cursor + 2 ^ classOf size ≥ h.size then return (0, h)
        else return (h.data + h.cursor + 16, h.carve (newHeader size))
      else do
        b.assert (fresh ≠ 0) "a && \"out of memory\""
        inBounds (fresh ≠ 0) "a->size"
        return (fresh + 16, h.setHeader fresh (newHeader size)) := by
  have hclass : intLog2 (LibSei.upperPowerOfTwo (size + sizeofAllocation)) = classOf size := rfl
  rw [malloc, Build.assert_of hsize.le_allocMaxSize, ok_bind]
  simp only [hclass, hsize.upperPowerOfTwo]
  rw [inBounds_of hsize.classOf_lt, ok_bind]
  rfl

end Heap

/-! ## Runs -/

/-- A heap, the memory obtained for its blocks and the blocks in use. -/
structure HeapRun where
  heap : Heap
  obtained : List Region
  live : List Region

namespace HeapRun

open Heap

/-- A call of the program. For `heap_malloc` it comes with what the system's `malloc` returns. -/
inductive Call where
  | malloc (size : UInt64) (fresh : Nat)
  | free (ptr : Nat)

/-- The memory `heap_malloc` obtains: none when it takes a block from a list. -/
def taken (h : Heap) (size : UInt64) (fresh : Nat) : List Region :=
  if h.freeList (classOf size) ≠ 0 then []
  else if h.size > 0 then
    if h.cursor + 2 ^ classOf size ≥ h.size then [] else [⟨h.data + h.cursor, 2 ^ classOf size⟩]
  else [⟨fresh, size.toNat + 16⟩]

/-- A call, or `none` if it does not return. No list has more blocks than were obtained. -/
def Call.run (b : Build) : Call → HeapRun → Exec (Option HeapRun)
  | .malloc size fresh, t => do
      let (ptr, heap) ← t.heap.malloc b size fresh
      let live := if ptr = 0 then t.live else ⟨ptr, size.toNat⟩ :: t.live
      return some ⟨heap, taken t.heap size fresh ++ t.obtained, live⟩
  | .free ptr, t => do
      let heap ← t.heap.free b t.obtained.length ptr
      return heap.map fun heap => ⟨heap, t.obtained, t.live.filter fun l => l.start ≠ ptr⟩

/-- The calls of a run meet the condition when they are made. -/
def Along (P : Call → HeapRun → Prop) (b : Build) : List Call → HeapRun → Prop
  | [], _ => True
  | call :: calls, t => P call t ∧ ∀ t', call.run b t = .ok (some t') → Along P b calls t'

variable {b : Build} {t t' : HeapRun} {chains : Nat → List Nat} {r l : Region} {size : UInt64}

/-- There is one state after a call that returns. -/
theorem Call.forall_of_run {call : Call} (hrun : call.run b t = .ok (some t')) {P : HeapRun → Prop}
    (h : P t') : ∀ t1, call.run b t = .ok (some t1) → P t1 := by
  intro t1 hrun1
  rw [hrun] at hrun1
  cases hrun1
  exact h

/-! ## The memory of the blocks -/

/-- The memory obtained for the blocks: regions that do not overlap, each with a header that records
a power of two, and in an arena side by side. -/
structure Laid (h : Heap) (obtained : List Region) : Prop where
  data : 0 < h.data
  cursor : 0 < h.size → h.cursor < h.size
  pairwise : obtained.Pairwise Region.Disjoint
  start_pos : ∀ r ∈ obtained, 0 < r.start
  header : ∀ r ∈ obtained, 16 ≤ r.len
  size : ∀ r ∈ obtained, (h.allocation r.start).size.toNat = 2 ^ h.blockClass r.start
  blockClass_lt : ∀ r ∈ obtained, h.blockClass r.start < freeListLength
  arena : 0 < h.size → ∀ r ∈ obtained,
    h.data ≤ r.start ∧ r.start + r.len ≤ h.data + h.cursor ∧ r.len = 2 ^ h.blockClass r.start

section Laid

variable {h h' : Heap} {obtained : List Region}

theorem Laid.eq_of_start (hlaid : Laid h obtained) {r s : Region} (hr : r ∈ obtained)
    (hs : s ∈ obtained) (hstart : r.start = s.start) : r = s := by
  by_contra hne
  have hdisjoint : r.Disjoint s := hlaid.pairwise.forall hr hs hne
  have hr16 := hlaid.header r hr
  have hs16 := hlaid.header s hs
  rcases hdisjoint with hlt | hlt <;> omega

/-- A block that overlaps no other begins where no other does. -/
theorem Laid.start_ne (hlaid : Laid h obtained) (hdisjoint : ∀ s ∈ obtained, r.Disjoint s)
    (hlen : 16 ≤ r.len) : ∀ s ∈ obtained, s.start ≠ r.start := by
  intro s hs heq
  have hs16 := hlaid.header s hs
  rcases hdisjoint s hs with hlt | hlt <;> omega

/-- The recorded size passes the check of `heap_free`. -/
theorem Laid.size_le (hlaid : Laid h obtained) (hr : r ∈ obtained) :
    (h.allocation r.start).size ≤ allocMaxSize := by
  have hlt := hlaid.blockClass_lt r hr
  rw [freeListLength_eq] at hlt
  rw [le_allocMaxSize_iff, hlaid.size r hr]
  exact Nat.pow_le_pow_right (by decide) (by omega)

/-- Only the links have changed. -/
theorem Laid.relink (hlaid : Laid h obtained) (hdata : h'.data = h.data) (hsize : h'.size = h.size)
    (hcursor : h'.cursor = h.cursor)
    (hsizes : ∀ a, (h'.allocation a).size = (h.allocation a).size) : Laid h' obtained := by
  have hclass : h'.blockClass = h.blockClass := funext fun a => by rw [blockClass, hsizes, blockClass]
  refine ⟨?_, ?_, hlaid.pairwise, hlaid.start_pos, hlaid.header, fun r hr => ?_, ?_, ?_⟩
  · rw [hdata]
    exact hlaid.data
  · rw [hsize, hcursor]
    exact hlaid.cursor
  · rw [hsizes, hclass]
    exact hlaid.size r hr
  · rw [hclass]
    exact hlaid.blockClass_lt
  · rw [hsize, hdata, hcursor, hclass]
    exact hlaid.arena

/-- Another block, at an address at which there was none. -/
theorem Laid.add (hlaid : Laid h obtained) (cursor : Nat) {pow2Size : UInt64} {k : Nat}
    (hpow : pow2Size.toNat = 2 ^ k) (hk : k < freeListLength) (hle : h.cursor ≤ cursor)
    (hcursor : 0 < h.size → cursor < h.size) (hdisjoint : ∀ s ∈ obtained, r.Disjoint s)
    (hpos : 0 < r.start) (hlen : 16 ≤ r.len)
    (harena : 0 < h.size → h.data ≤ r.start ∧ r.start + r.len ≤ h.data + cursor ∧ r.len = 2 ^ k) :
    Laid (setHeader { h with cursor := cursor } r.start pow2Size) (r :: obtained) := by
  have hother := hlaid.start_ne hdisjoint hlen
  have hself : blockClass (setHeader { h with cursor := cursor } r.start pow2Size) r.start = k := by
    rw [blockClass_setHeader, Function.update_self, intLog2_of_two_pow hpow]
  have hsame : ∀ s ∈ obtained,
      blockClass (setHeader { h with cursor := cursor } r.start pow2Size) s.start =
        h.blockClass s.start := by
    intro s hs
    rw [blockClass_setHeader, Function.update_of_ne (hother s hs)]
    rfl
  refine ⟨hlaid.data, hcursor, List.pairwise_cons.mpr ⟨hdisjoint, hlaid.pairwise⟩, ?_, ?_, ?_, ?_, ?_⟩
  · exact List.forall_mem_cons.mpr ⟨hpos, hlaid.start_pos⟩
  · exact List.forall_mem_cons.mpr ⟨hlen, hlaid.header⟩
  · refine List.forall_mem_cons.mpr ⟨?_, fun s hs => ?_⟩
    · rw [hself, ← hpow, allocation_setHeader, Function.update_self]
    · rw [hsame s hs, ← hlaid.size s hs, allocation_setHeader, Function.update_of_ne (hother s hs)]
  · refine List.forall_mem_cons.mpr ⟨?_, fun s hs => ?_⟩
    · rwa [hself]
    · rw [hsame s hs]
      exact hlaid.blockClass_lt s hs
  · intro hsize
    refine List.forall_mem_cons.mpr ⟨?_, fun s hs => ?_⟩
    · rw [hself]
      exact harena hsize
    · obtain ⟨hlow, hhigh, hpow⟩ := hlaid.arena hsize s hs
      rw [hsame s hs]
      exact ⟨hlow, hhigh.trans (Nat.add_le_add_left hle _), hpow⟩

end Laid

/-! ## Blocks in use and blocks in lists -/

/-- Every block is in use or in the list of its class, and `chains` has the blocks of each list. -/
structure Kept (t : HeapRun) (chains : Nat → List Nat) : Prop extends Laid t.heap t.obtained where
  chain : ∀ c, Chain 0 t.heap.next (t.heap.freeList c) (chains c)
  listed : ∀ c, ∀ a ∈ chains c, a ∈ t.obtained.map Region.start ∧ t.heap.blockClass a = c
  live : ∀ l ∈ t.live, ∃ r ∈ t.obtained, l.start = r.start + 16 ∧ t.heap.next r.start = 0 ∧
    ∀ c, r.start ∉ chains c
  live_nodup : (t.live.map Region.start).Nodup
  free : ∀ r ∈ t.obtained, r.start + 16 ∉ t.live.map Region.start →
    r.start ∈ chains (t.heap.blockClass r.start)

/-- A block that is in a list is not in use, and neither is one that was not obtained. -/
theorem Kept.not_live (h : t.Kept chains) {a : Nat}
    (ha : ∀ s ∈ t.obtained, s.start = a → ∃ c, a ∈ chains c) :
    a + 16 ∉ t.live.map Region.start := by
  intro hin
  obtain ⟨l, hl, hstart⟩ := List.mem_map.mp hin
  obtain ⟨s, hs, hls, -, hnone⟩ := h.live l hl
  rw [hls] at hstart
  have hsa : s.start = a := Nat.add_right_cancel hstart
  obtain ⟨c, hc⟩ := ha s hs hsa
  exact hnone c (hsa ▸ hc)

/-- The block in front of a list is put to use. -/
theorem Kept.reuse (h : t.Kept chains) {k : Nat} (hhead : t.heap.freeList k ≠ 0) (n : Nat) :
    ∃ chains',
      Kept ⟨t.heap.takeFirst k, t.obtained, ⟨t.heap.freeList k + 16, n⟩ :: t.live⟩ chains' := by
  generalize ha : t.heap.freeList k = a at hhead
  obtain ⟨rest, hchain, hrest⟩ := (ha ▸ h.chain k).cons_of_ne hhead
  have hfirst : a ∈ chains k := hchain ▸ List.mem_cons_self
  obtain ⟨hstart, hclass⟩ := h.listed k a hfirst
  obtain ⟨r, hr, rfl⟩ := List.mem_map.mp hstart
  have hfresh : r.start ∉ rest := (List.nodup_cons.mp (hchain ▸ (h.chain k).nodup)).1
  have hmem : ∀ {c x}, x ∈ Function.update chains k rest c ↔ x ∈ chains c ∧ x ≠ r.start := by
    intro c x
    rw [mem_update_tail hchain hfresh]
    refine and_congr_right fun hx => not_congr (and_iff_right_of_imp ?_)
    rintro rfl
    exact (h.listed c _ hx).2.symm.trans hclass
  have hnext : (t.heap.takeFirst k).next = Function.update t.heap.next r.start 0 := by
    rw [takeFirst, next_setNext, ha]
    rfl
  have hlinks : ∀ x, x ≠ r.start → (t.heap.takeFirst k).next x = t.heap.next x := by
    intro x hx
    rw [hnext, Function.update_of_ne hx]
  have hblock : (t.heap.takeFirst k).blockClass = t.heap.blockClass := blockClass_setNext 0
  refine ⟨Function.update chains k rest,
    ⟨h.toLaid.relink rfl rfl rfl fun a => ?_, ?_, fun c x hx => ?_, ?_, ?_, fun s hs hfree => ?_⟩⟩
  · exact size_setNext _ a
  · refine chain_update h.chain ?_ (fun c hc => Function.update_of_ne hc _ _) fun c hc x hx => ?_
    · -- The block is in the list no more, so its link is not part of it.
      have hhead' : (t.heap.takeFirst k).freeList k = t.heap.next r.start := by
        show Function.update t.heap.freeList k _ k = _
        rw [Function.update_self, ha]
        rfl
      rw [hhead']
      exact hrest.congr fun x hx => hlinks x fun heq => hfresh (heq ▸ hx)
    · exact hlinks x fun heq => hc ((h.listed c x hx).2.symm.trans (heq ▸ hclass))
  · show _ ∧ (t.heap.takeFirst k).blockClass x = c
    rw [hblock]
    exact h.listed c x (hmem.mp hx).1
  · refine List.forall_mem_cons.mpr ⟨⟨r, hr, rfl, ?_, fun c hc => (hmem.mp hc).2 rfl⟩, fun l hl => ?_⟩
    · show (t.heap.takeFirst k).next r.start = 0
      rw [hnext, Function.update_self]
    · obtain ⟨s, hs, hls, hzero, hnone⟩ := h.live l hl
      have hsr : s.start ≠ r.start := fun heq => hnone k (heq ▸ hfirst)
      exact ⟨s, hs, hls, (hlinks _ hsr).trans hzero, fun c hc => hnone c (hmem.mp hc).1⟩
  · exact List.nodup_cons.mpr ⟨h.not_live fun _ _ _ => ⟨k, hfirst⟩, h.live_nodup⟩
  · have hsr : s.start ≠ r.start := fun heq => hfree (heq ▸ List.mem_cons_self)
    show s.start ∈ Function.update chains k rest ((t.heap.takeFirst k).blockClass s.start)
    rw [hblock, hmem]
    exact ⟨h.free s hs fun hl => hfree (List.mem_cons_of_mem _ hl), hsr⟩

/-- A new block is put to use. -/
theorem Kept.add (h : t.Kept chains) {heap : Heap} {cursor : Nat} {pow2Size : UInt64}
    (hheap : heap = setHeader { t.heap with cursor := cursor } r.start pow2Size)
    (hdisjoint : ∀ s ∈ t.obtained, r.Disjoint s) (hlen : 16 ≤ r.len)
    (hlaid : Laid heap (r :: t.obtained)) (n : Nat) :
    Kept ⟨heap, r :: t.obtained, ⟨r.start + 16, n⟩ :: t.live⟩ chains := by
  have hother := h.toLaid.start_ne hdisjoint hlen
  have hout : ∀ c, ∀ a ∈ chains c, a ≠ r.start := by
    intro c a ha heq
    obtain ⟨s, hs, hsa⟩ := List.mem_map.mp (h.listed c a ha).1
    exact hother s hs (hsa.trans heq)
  have hnext : heap.next = Function.update t.heap.next r.start 0 := by
    rw [hheap, next_setHeader]
    rfl
  have hblock : ∀ a, a ≠ r.start → heap.blockClass a = t.heap.blockClass a := by
    intro a ha
    rw [hheap, blockClass_setHeader, Function.update_of_ne ha]
    rfl
  refine ⟨hlaid, fun c => ?_, fun c a ha => ?_, ?_, ?_, ?_⟩
  · rw [hheap]
    refine Chain.congr (h.chain c) fun a ha => ?_
    rw [← hheap, hnext, Function.update_of_ne (hout c a ha)]
  · obtain ⟨hstart, hclass⟩ := h.listed c a ha
    exact ⟨List.mem_cons_of_mem _ hstart, (hblock a (hout c a ha)).trans hclass⟩
  · refine List.forall_mem_cons.mpr ⟨⟨r, List.mem_cons_self, rfl, ?_, fun c hc => hout c _ hc rfl⟩, ?_⟩
    · rw [hnext, Function.update_self]
    · intro l hl
      obtain ⟨s, hs, hls, hzero, hnone⟩ := h.live l hl
      refine ⟨s, List.mem_cons_of_mem _ hs, hls, ?_, hnone⟩
      rw [hnext, Function.update_of_ne (hother s hs), hzero]
  · have hnot := h.not_live fun s hs heq => absurd heq (hother s hs)
    exact List.nodup_cons.mpr ⟨hnot, h.live_nodup⟩
  · refine List.forall_mem_cons.mpr ⟨fun hfree => absurd List.mem_cons_self hfree, ?_⟩
    intro s hs hfree
    rw [hblock _ (hother s hs)]
    exact h.free s hs fun hl => hfree (List.mem_cons_of_mem _ hl)

/-- What `heap_free` does with a block that was obtained. -/
theorem Kept.free_eq (h : t.Kept chains) (hr : r ∈ t.obtained) (fuel : Nat) :
    t.heap.free b fuel (r.start + 16) =
      if t.heap.freeList (t.heap.blockClass r.start) = 0 then
        .ok (some (t.heap.setFreeList (t.heap.blockClass r.start) r.start))
      else .ok ((lastLink 0 t.heap.next fuel (t.heap.freeList (t.heap.blockClass r.start))).map
        fun tail => t.heap.setNext tail r.start) := by
  have hlt := h.blockClass_lt r hr
  have hptr : r.start + 16 - sizeofAllocation.toNat = r.start := Nat.add_sub_cancel ..
  have hin : t.heap.size > 0 → t.heap.heapIn (r.start + 16) := by
    intro hsize
    obtain ⟨hlow, hhigh, -⟩ := h.arena hsize r hr
    have hcursor := h.cursor hsize
    have hheader := h.header r hr
    exact .inr ⟨by omega, by omega⟩
  have hclass : intLog2 (t.heap.allocation r.start).size = t.heap.blockClass r.start := rfl
  rw [Heap.free, Build.assert_of hin, ok_bind]
  simp only [hptr, hclass]
  rw [Build.assert_of (h.size_le hr), ok_bind, inBounds_of hlt, ok_bind]
  rfl

/-- Appending to a list: the links of blocks that are in no list are left alone. -/
theorem Kept.free_eq_ok (h : t.Kept chains) (hr : r ∈ t.obtained) (hzero : t.heap.next r.start = 0)
    (hnone : ∀ c, r.start ∉ chains c) :
    ∃ heap, t.heap.free b t.obtained.length (r.start + 16) = .ok (some heap) ∧
      Laid heap t.obtained ∧ heap.size = t.heap.size ∧ heap.blockClass = t.heap.blockClass ∧
      (∀ a, (∀ c, a ∉ chains c) → heap.next a = t.heap.next a) ∧
      ∀ c, Chain 0 heap.next (heap.freeList c)
        (Function.update chains (t.heap.blockClass r.start)
          (chains (t.heap.blockClass r.start) ++ [r.start]) c) := by
  have hpos := h.start_pos r hr
  rw [h.free_eq hr]
  generalize t.heap.blockClass r.start = k
  by_cases hempty : t.heap.freeList k = 0
  · -- The block becomes the only one of its list.
    rw [if_pos hempty]
    have hnil := h.chain k
    rw [hempty] at hnil
    replace hnil := hnil.nil_of_null
    refine ⟨_, rfl, h.toLaid.relink rfl rfl rfl fun _ => rfl, rfl, rfl, fun _ _ => rfl, ?_⟩
    refine chain_update h.chain ?_ (fun c hc => Function.update_of_ne hc _ _) fun _ _ _ _ => rfl
    show Chain 0 t.heap.next (Function.update t.heap.freeList k r.start k) _
    rw [hnil, Function.update_self]
    exact ⟨rfl, by omega, hzero⟩
  · rw [if_neg hempty]
    have hlength : (chains k).length ≤ t.obtained.length := by
      have hsub : chains k ⊆ t.obtained.map Region.start := fun a ha => (h.listed k a ha).1
      have hle := (List.subperm_of_subset (h.chain k).nodup hsub).length_le
      rwa [List.length_map] at hle
    obtain ⟨last, hlast, hwalk, happend⟩ := (h.chain k).lastLink hempty hlength
    rw [hwalk]
    have hnext : (t.heap.setNext last r.start).next = Function.update t.heap.next last r.start :=
      next_setNext _
    refine ⟨_, rfl, h.toLaid.relink rfl rfl rfl fun a => size_setNext _ a, rfl, blockClass_setNext _, ?_, ?_⟩
    · intro a ha
      have hne : a ≠ last := fun heq => ha k (heq ▸ hlast)
      rw [hnext, Function.update_of_ne hne]
    · refine chain_update h.chain ?_ (fun _ _ => rfl) fun c hc a ha => ?_
      · rw [hnext]
        exact happend r.start (by omega) hzero (hnone k)
      · have hne : a ≠ last := fun heq =>
          hc ((h.listed c a ha).2.symm.trans (heq ▸ (h.listed k last hlast).2))
        rw [hnext, Function.update_of_ne hne]

/-- A block that is in use goes to the list of its class. -/
theorem Kept.release (h : t.Kept chains) (hl : l ∈ t.live) :
    ∃ heap chains', t.heap.free b t.obtained.length l.start = .ok (some heap) ∧
      heap.size = t.heap.size ∧
      Kept ⟨heap, t.obtained, t.live.filter fun l' => l'.start ≠ l.start⟩ chains' := by
  obtain ⟨r, hr, hlr, hzero, hnone⟩ := h.live l hl
  obtain ⟨heap, hfree, hlaid, hsize, hblock, hnext, hchain⟩ := h.free_eq_ok (b := b) hr hzero hnone
  rw [← hlr] at hfree
  generalize hk : t.heap.blockClass r.start = k at hchain
  refine ⟨heap, _, hfree, hsize, ⟨hlaid, hchain, fun c a ha => ?_, fun l' hl' => ?_, ?_, ?_⟩⟩
  · show _ ∧ heap.blockClass a = c
    rw [hblock]
    rcases mem_update_append.mp ha with ha | ⟨rfl, rfl⟩
    · exact h.listed c a ha
    · exact ⟨List.mem_map_of_mem hr, hk⟩
  · obtain ⟨hl', hne⟩ := List.mem_filter.mp hl'
    obtain ⟨s, hs, hls, hzero, hout⟩ := h.live l' hl'
    have hsr : s.start ≠ r.start := by
      intro heq
      rw [hls, hlr, heq] at hne
      simp at hne
    refine ⟨s, hs, hls, (hnext _ hout).trans hzero, fun c hc => ?_⟩
    rcases mem_update_append.mp hc with hc | ⟨-, heq⟩
    · exact hout c hc
    · exact hsr heq
  · exact h.live_nodup.sublist (List.filter_sublist.map _)
  · intro s hs hfree'
    show s.start ∈ Function.update chains k (chains k ++ [r.start]) (heap.blockClass s.start)
    rw [hblock, mem_update_append]
    by_cases hsr : s.start = r.start
    · exact .inr ⟨hsr ▸ hk, hsr⟩
    · refine .inl (h.free s hs fun hin => hfree' ?_)
      obtain ⟨l', hl', hstart⟩ := List.mem_map.mp hin
      refine List.mem_map.mpr ⟨l', List.mem_filter.mpr ⟨hl', ?_⟩, hstart⟩
      rw [hstart, hlr]
      simpa using hsr

end HeapRun

end LibSei
