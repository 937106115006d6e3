-- SUMMARY: When the blocks of the heap are big enough and disjoint along a run, and that every freed block is in one list.
import LibSei.Heap.Blocks

/-!
# Heap blocks

A block from the arena has the rounded size, so it can serve any later request of its class. One
from the system has the size that was first asked for, but its header records the rounded one.
-/

namespace LibSei

open Memory Control

namespace HeapRun

open Heap

/-- What the heap promises its caller at one point of a run. -/
structure Consistent (t : HeapRun) : Prop where
  /-- Every block in use has the bytes asked for, behind its header. -/
  fits : ∀ l ∈ t.live, ∃ r ∈ t.obtained, l.start = r.start + 16 ∧ l.start + l.len ≤ r.start + r.len
  disjoint : t.live.Pairwise Region.Disjoint
  arena : 0 < t.heap.size → ∀ l ∈ t.live,
    t.heap.data ≤ l.start ∧ l.start + l.len ≤ t.heap.data + t.heap.size
  /-- A block that is not in use is once in the list of its class. -/
  freed : ∀ r ∈ t.obtained, r.start + 16 ∉ t.live.map Region.start →
    ∃ list, Chain 0 t.heap.next (t.heap.freeList (t.heap.blockClass r.start)) list ∧
      list.count r.start = 1
  /-- It is in no other list, and a block in use is in none. -/
  elsewhere : ∀ r ∈ t.obtained, ∀ c list, Chain 0 t.heap.next (t.heap.freeList c) list →
    r.start ∈ list → c = t.heap.blockClass r.start ∧ r.start + 16 ∉ t.live.map Region.start

/-- The promise holds along the calls, and a call that does not stop the process returns. -/
def Upholds (b : Build) : List Call → HeapRun → Prop
  | [], t => t.Consistent
  | call :: calls, t => t.Consistent ∧ call.run b t ≠ .ok none ∧
      call.run b t ≠ .error (.outOfBounds "heap->free_list[log2]") ∧
      ∀ t', call.run b t = .ok (some t') → Upholds b calls t'

/-- The sizes meet the condition, only blocks in use are freed, and the system's `malloc`, when it is
called and does not fail, returns memory that was not obtained before. -/
def Call.Legal (sizes : UInt64 → Prop) : Call → HeapRun → Prop
  | .malloc size fresh, t => sizes size ∧
      (t.heap.size = 0 → t.heap.freeList (classOf size) = 0 → fresh ≠ 0 →
        ∀ s ∈ t.obtained, Region.Disjoint ⟨fresh, size.toNat + 16⟩ s)
  | .free ptr, t => ptr ∈ t.live.map Region.start

/-- The call is legal and its size admitted. -/
def Call.Proper : Call → HeapRun → Prop := Call.Legal Admitted

/-- The calls are proper when they are made. -/
def Proper : Build → List Call → HeapRun → Prop := Along Call.Proper

/-- A block that is taken from a list has the bytes asked for now. -/
def Call.Serves : Call → HeapRun → Prop
  | .malloc size _, t => ∀ r ∈ t.obtained, r.start = t.heap.freeList (classOf size) →
      size.toNat + 16 ≤ r.len
  | .free _, _ => True

/-- No block is used again for a request that is larger than the one it was obtained for. -/
def Serves : Build → List Call → HeapRun → Prop := Along Call.Serves

variable {b : Build} {t t' : HeapRun} {chains : Nat → List Nat} {call : Call} {calls : List Call}
  {size : UInt64} {fresh : Nat}

/-! ## Room for what was asked for -/

/-- Every block in use has the bytes asked for. -/
def Fits (t : HeapRun) : Prop :=
  ∀ l ∈ t.live, ∀ r ∈ t.obtained, l.start = r.start + 16 → l.len + 16 ≤ r.len

theorem Consistent.toFits (hcons : t.Consistent) (h : t.Kept chains) : t.Fits := by
  intro l hl r hr hlr
  obtain ⟨r', hr', hlr', hlen⟩ := hcons.fits l hl
  obtain rfl : r' = r := h.eq_of_start hr' hr (Nat.add_right_cancel (hlr'.symm.trans hlr))
  omega

/-- Blocks that fit into their memory do not overlap, since the memory does not. -/
theorem Kept.consistent (h : t.Kept chains) (hfits : t.Fits) : t.Consistent := by
  refine ⟨fun l hl => ?_, ?_, fun hsize l hl => ?_, fun r hr hfree => ?_, fun r hr c list hlist hin => ?_⟩
  · obtain ⟨r, hr, hlr, -⟩ := h.live l hl
    have hlen := hfits l hl r hr hlr
    exact ⟨r, hr, hlr, by omega⟩
  · refine (List.pairwise_map.mp h.live_nodup).imp_of_mem fun {l l'} hl hl' hne => ?_
    obtain ⟨r, hr, hlr, -⟩ := h.live l hl
    obtain ⟨r', hr', hlr', -⟩ := h.live l' hl'
    have hlen := hfits l hl r hr hlr
    have hlen' := hfits l' hl' r' hr' hlr'
    have hdisjoint : r.Disjoint r' := h.pairwise.forall hr hr' fun heq => hne (by rw [hlr, hlr', heq])
    rcases hdisjoint with hlt | hlt
    · exact .inl (by omega)
    · exact .inr (by omega)
  · obtain ⟨r, hr, hlr, -⟩ := h.live l hl
    obtain ⟨hlow, hhigh, -⟩ := h.arena hsize r hr
    have hlen := hfits l hl r hr hlr
    have hcursor := h.cursor hsize
    exact ⟨by omega, by omega⟩
  · exact ⟨_, h.chain _, List.count_eq_one_of_mem (h.chain _).nodup (h.free r hr hfree)⟩
  · rw [hlist.unique (h.chain c)] at hin
    refine ⟨(h.listed c _ hin).2.symm, fun hlive => ?_⟩
    obtain ⟨l, hl, hlr⟩ := List.mem_map.mp hlive
    obtain ⟨r', -, hlr', -, hnone⟩ := h.live l hl
    have hstart : r'.start = r.start := Nat.add_right_cancel (hlr'.symm.trans hlr)
    exact hnone c (hstart ▸ hin)

/-! ## Calls -/

theorem run_malloc_reuse (hsize : Admitted size) (hhead : t.heap.freeList (classOf size) ≠ 0) :
    (Call.malloc size fresh).run b t = .ok (some ⟨t.heap.takeFirst (classOf size), t.obtained,
      ⟨t.heap.freeList (classOf size) + 16, size.toNat⟩ :: t.live⟩) := by
  rw [Call.run, hsize.malloc_eq, if_pos hhead, taken, if_pos hhead]
  rfl

theorem run_malloc_arena (hsize : Admitted size) (hempty : t.heap.freeList (classOf size) = 0)
    (harena : t.heap.size > 0) (hrun : (Call.malloc size fresh).run b t = .ok (some t')) :
    t' = t ∨ (t.heap.cursor + 2 ^ classOf size < t.heap.size ∧
      t' = ⟨t.heap.carve (newHeader size), ⟨t.heap.data + t.heap.cursor, 2 ^ classOf size⟩ :: t.obtained,
        ⟨t.heap.data + t.heap.cursor + 16, size.toNat⟩ :: t.live⟩) := by
  rw [Call.run, hsize.malloc_eq, if_neg (not_not.mpr hempty), if_pos harena, taken,
    if_neg (not_not.mpr hempty), if_pos harena] at hrun
  by_cases hfull : t.heap.cursor + 2 ^ classOf size ≥ t.heap.size
  · simp only [if_pos hfull, bind_eq_ok] at hrun
    obtain ⟨_, ⟨_, -, ⟨⟩⟩, ⟨⟩⟩ := hrun
    exact .inl rfl
  · simp only [if_neg hfull, bind_eq_ok] at hrun
    obtain ⟨_, ⟨_, -, ⟨⟩⟩, ⟨⟩⟩ := hrun
    exact .inr ⟨not_le.mp hfull, rfl⟩

theorem run_malloc_system (hsize : Admitted size) (hempty : t.heap.freeList (classOf size) = 0)
    (hnone : ¬ t.heap.size > 0) (hrun : (Call.malloc size fresh).run b t = .ok (some t')) :
    fresh ≠ 0 ∧ t' = ⟨t.heap.setHeader fresh (newHeader size), ⟨fresh, size.toNat + 16⟩ :: t.obtained,
      ⟨fresh + 16, size.toNat⟩ :: t.live⟩ := by
  rw [Call.run, hsize.malloc_eq, if_neg (not_not.mpr hempty), if_neg hnone, taken,
    if_neg (not_not.mpr hempty), if_neg hnone] at hrun
  simp only [bind_eq_ok, inBounds_eq_ok] at hrun
  obtain ⟨_, ⟨_, -, _, hfresh, ⟨⟩⟩, ⟨⟩⟩ := hrun
  exact ⟨hfresh, rfl⟩

/-- A request of an admitted size returns or stops, but not at the table of lists. -/
theorem run_malloc_ne (hsize : Admitted size) :
    (Call.malloc size fresh).run b t ≠ .ok none ∧
      (Call.malloc size fresh).run b t ≠ .error (.outOfBounds "heap->free_list[log2]") := by
  constructor
  · intro hrun
    rw [Call.run, bind_eq_ok] at hrun
    obtain ⟨_, -, hrun⟩ := hrun
    cases hrun
  · rw [Call.run, hsize.malloc_eq]
    refine bind_ne_error ?_ fun _ _ => ok_ne_error _ _
    split
    · exact ok_ne_error _ _
    split
    · refine bind_ne_error Build.assert_ne_outOfBounds fun _ _ => ?_
      split
      · exact ok_ne_error _ _
      · exact ok_ne_error _ _
    · refine bind_ne_error Build.assert_ne_outOfBounds fun _ _ => ?_
      exact bind_ne_error (require_ne_error (by decide)) fun _ _ => ok_ne_error _ _

/-- A block in use that is added to those that fit. -/
theorem Fits.cons (hfits : t.Fits) {l : Region} {obtained : List Region} {heap : Heap}
    (hold : ∀ r ∈ obtained, r ∈ t.obtained ∨ ∀ l' ∈ t.live, l'.start ≠ r.start + 16)
    (hnew : ∀ r ∈ obtained, l.start = r.start + 16 → l.len + 16 ≤ r.len) :
    Fits ⟨heap, obtained, l :: t.live⟩ := by
  intro l' hl' r hr hlr
  rcases List.mem_cons.mp hl' with rfl | hl'
  · exact hnew r hr hlr
  · rcases hold r hr with hr | hr
    · exact hfits l' hl' r hr hlr
    · exact absurd hlr (hr l' hl')

/-- Memory that was not obtained before holds a new block. -/
theorem Kept.fits_add (h : t.Kept chains) (hfits : t.Fits) {r : Region} {heap : Heap} {n : Nat}
    (hdisjoint : ∀ s ∈ t.obtained, r.Disjoint s) (hlen : n + 16 ≤ r.len) :
    Fits ⟨heap, r :: t.obtained, ⟨r.start + 16, n⟩ :: t.live⟩ := by
  have hother := h.toLaid.start_ne hdisjoint (by omega)
  refine hfits.cons (fun s hs => ?_) fun s hs hrs => ?_
  · rcases List.mem_cons.mp hs with rfl | hs
    · have hnot := h.not_live fun s hs heq => absurd heq (hother s hs)
      exact .inr fun l hl hls => hnot (List.mem_map.mpr ⟨l, hl, hls⟩)
    · exact .inl hs
  · rcases List.mem_cons.mp hs with rfl | hs
    · exact hlen
    · exact absurd (Nat.add_right_cancel hrs).symm (hother s hs)

/-- A block at the cursor is behind all others. -/
theorem Kept.carve (h : t.Kept chains) (hsize : Admitted size) (harena : 0 < t.heap.size)
    (hcursor : t.heap.cursor + 2 ^ classOf size < t.heap.size) :
    Kept ⟨t.heap.carve (newHeader size), ⟨t.heap.data + t.heap.cursor, 2 ^ classOf size⟩ :: t.obtained,
      ⟨t.heap.data + t.heap.cursor + 16, size.toNat⟩ :: t.live⟩ chains ∧
    (t.Fits → Fits ⟨t.heap.carve (newHeader size),
      ⟨t.heap.data + t.heap.cursor, 2 ^ classOf size⟩ :: t.obtained,
      ⟨t.heap.data + t.heap.cursor + 16, size.toNat⟩ :: t.live⟩) := by
  have hroom := hsize.le_two_pow
  have hpow : (newHeader size).toNat = 2 ^ classOf size := hsize.upperPowerOfTwo
  have hheader : 16 ≤ 2 ^ classOf size := by omega
  have hdisjoint : ∀ s ∈ t.obtained,
      Region.Disjoint ⟨t.heap.data + t.heap.cursor, 2 ^ classOf size⟩ s :=
    fun s hs => .inr (h.arena harena s hs).2.1
  have hlaid := h.toLaid.add (r := ⟨t.heap.data + t.heap.cursor, 2 ^ classOf size⟩)
    (t.heap.cursor + (newHeader size).toNat) hpow hsize.classOf_lt (Nat.le_add_right _ _)
    (fun _ => by rwa [hpow]) hdisjoint (Nat.add_pos_left h.data _) hheader
    (fun _ => ⟨Nat.le_add_right _ _, by rw [hpow, Nat.add_assoc], rfl⟩)
  exact ⟨h.add rfl hdisjoint hheader hlaid _, fun hfits => h.fits_add hfits hdisjoint hroom⟩

/-- A block from the system has the bytes asked for. -/
theorem Kept.system (h : t.Kept chains) (hsize : Admitted size) (hnone : ¬ 0 < t.heap.size)
    (hfresh : fresh ≠ 0) (hdisjoint : ∀ s ∈ t.obtained, Region.Disjoint ⟨fresh, size.toNat + 16⟩ s) :
    Kept ⟨t.heap.setHeader fresh (newHeader size), ⟨fresh, size.toNat + 16⟩ :: t.obtained,
      ⟨fresh + 16, size.toNat⟩ :: t.live⟩ chains ∧
    (t.Fits → Fits ⟨t.heap.setHeader fresh (newHeader size), ⟨fresh, size.toNat + 16⟩ :: t.obtained,
      ⟨fresh + 16, size.toNat⟩ :: t.live⟩) := by
  have hheader : 16 ≤ size.toNat + 16 := Nat.le_add_left _ _
  have hlaid := h.toLaid.add (r := ⟨fresh, size.toNat + 16⟩) t.heap.cursor
    hsize.upperPowerOfTwo hsize.classOf_lt (le_refl _) (fun harena => absurd harena hnone) hdisjoint
    (Nat.pos_of_ne_zero hfresh) hheader (fun harena => absurd harena hnone)
  exact ⟨h.add rfl hdisjoint hheader hlaid _, fun hfits => h.fits_add hfits hdisjoint (le_refl _)⟩

/-- A call leaves every block in use or in the list of its class. What is in use fits if it did
before and the call serves its request. -/
theorem Kept.run (h : t.Kept chains) (hproper : call.Proper t) :
    call.run b t ≠ .ok none ∧ call.run b t ≠ .error (.outOfBounds "heap->free_list[log2]") ∧
    ∀ t', call.run b t = .ok (some t') → (∃ chains', t'.Kept chains') ∧
      t'.heap.size = t.heap.size ∧ (t.Fits → call.Serves t → t'.Fits) := by
  cases call with
  | malloc size fresh =>
    obtain ⟨hsize, hnew⟩ := hproper
    refine ⟨(run_malloc_ne hsize).1, (run_malloc_ne hsize).2, fun t' hrun => ?_⟩
    by_cases hhead : t.heap.freeList (classOf size) = 0
    · by_cases harena : t.heap.size > 0
      · rcases run_malloc_arena hsize hhead harena hrun with rfl | ⟨hcursor, rfl⟩
        · exact ⟨⟨chains, h⟩, rfl, fun hfits _ => hfits⟩
        · obtain ⟨hkept, hfits⟩ := h.carve hsize harena hcursor
          exact ⟨⟨chains, hkept⟩, rfl, fun hold _ => hfits hold⟩
      · obtain ⟨hfresh, rfl⟩ := run_malloc_system hsize hhead harena hrun
        obtain ⟨hkept, hfits⟩ := h.system hsize harena hfresh (hnew (by omega) hhead hfresh)
        exact ⟨⟨chains, hkept⟩, rfl, fun hold _ => hfits hold⟩
    · rw [run_malloc_reuse hsize hhead] at hrun
      cases hrun
      refine ⟨h.reuse hhead _, rfl, fun hfits hserves => ?_⟩
      exact hfits.cons (fun r hr => .inl hr) fun r hr hstart =>
        hserves r hr (Nat.add_right_cancel hstart).symm
  | free ptr =>
    obtain ⟨l, hl, rfl⟩ := List.mem_map.mp hproper
    obtain ⟨heap, chains', hfree, hsize, hkept⟩ := h.release (b := b) hl
    have hrun : (Call.free l.start).run b t =
        .ok (some ⟨heap, t.obtained, t.live.filter fun l' => l'.start ≠ l.start⟩) := by
      rw [Call.run, hfree]
      rfl
    rw [hrun]
    refine ⟨nofun, nofun, fun t' hok => ?_⟩
    cases hok
    exact ⟨⟨chains', hkept⟩, hsize, fun hfits _ l' hl' => hfits l' (List.mem_filter.mp hl').1⟩

/-- In an arena all blocks of a class have its size. -/
theorem Kept.serves (h : t.Kept chains) (hproper : call.Proper t) (harena : 0 < t.heap.size) :
    call.Serves t := by
  cases call with
  | malloc size fresh =>
    obtain ⟨hsize, -⟩ := hproper
    intro r hr hstart
    have hpos := h.start_pos r hr
    obtain ⟨rest, hchain, -⟩ := (h.chain (classOf size)).cons_of_ne (by omega)
    have hclass := (h.listed (classOf size) r.start (by rw [hchain, ← hstart]; exact List.mem_cons_self)).2
    rw [(h.arena harena r hr).2.2, hclass]
    exact hsize.le_two_pow
  | free ptr => trivial

/-- A block that is too small is handed out all the same. -/
theorem Kept.not_fits (h : t.Kept chains) (hproper : call.Proper t) (hserves : ¬ call.Serves t) :
    ∃ t', call.run b t = .ok (some t') ∧ ¬ t'.Fits := by
  cases call with
  | malloc size fresh =>
    obtain ⟨hsize, -⟩ := hproper
    simp only [Call.Serves, not_forall] at hserves
    obtain ⟨r, hr, hstart, hlen⟩ := hserves
    have hpos := h.start_pos r hr
    refine ⟨_, run_malloc_reuse hsize (by omega), fun hfits => hlen ?_⟩
    exact hfits _ List.mem_cons_self r hr (by rw [hstart])
  | free ptr => exact absurd trivial hserves

theorem Upholds.consistent (h : Upholds b calls t) : t.Consistent := by
  cases calls with
  | nil => exact h
  | cons call calls => exact h.1

theorem Kept.upholds_iff (h : t.Kept chains) (hfits : t.Fits) (hproper : Proper b calls t) :
    Upholds b calls t ↔ 0 < t.heap.size ∨ Serves b calls t := by
  induction calls generalizing t chains with
  | nil => exact ⟨fun _ => .inr trivial, fun _ => h.consistent hfits⟩
  | cons call calls ih =>
    obtain ⟨hcall, hrest⟩ := hproper
    obtain ⟨hreturns, hbounds, hkept⟩ := h.run (b := b) hcall
    constructor
    · rintro ⟨-, -, -, hupholds⟩
      by_cases harena : 0 < t.heap.size
      · exact .inl harena
      · have hserves : call.Serves t := by
          by_contra hnot
          obtain ⟨t', hrun, hbad⟩ := h.not_fits (b := b) hcall hnot
          obtain ⟨⟨chains', hkept'⟩, -⟩ := hkept t' hrun
          exact hbad ((hupholds t' hrun).consistent.toFits hkept')
        refine .inr ⟨hserves, fun t' hrun => ?_⟩
        obtain ⟨⟨chains', hkept'⟩, hsize, hfits'⟩ := hkept t' hrun
        have hiff := ih hkept' (hfits' hfits hserves) (hrest t' hrun)
        rw [hsize] at hiff
        exact (hiff.mp (hupholds t' hrun)).resolve_left harena
    · intro hcond
      have hserves : call.Serves t := hcond.elim (h.serves hcall) fun hserves => hserves.1
      refine ⟨h.consistent hfits, hreturns, hbounds, fun t' hrun => ?_⟩
      obtain ⟨⟨chains', hkept'⟩, hsize, hfits'⟩ := hkept t' hrun
      refine (ih hkept' (hfits' hfits hserves) (hrest t' hrun)).mpr ?_
      rw [hsize]
      exact hcond.imp_right fun hserves => hserves.2 t' hrun

theorem kept_init {size : UInt32} {data : Nat} {room : Bool} {heap : Heap}
    (hinit : init b size data room = .ok heap) :
    Kept ⟨heap, [], []⟩ (fun _ => []) ∧ heap.size = size.toNat := by
  simp only [init, bind_eq_ok, pure_eq_ok, Except.ok.injEq] at hinit
  obtain ⟨_, hmemory, _, -, _, -, rfl⟩ := hinit
  have hdata : data ≠ 0 := by
    rw [initMemory] at hmemory
    split at hmemory
    · exact require_eq_ok.mp (seq_eq_ok.mp hmemory).2
    · exact inBounds_eq_ok.mp (seq_eq_ok.mp hmemory).2
  refine ⟨⟨⟨Nat.pos_of_ne_zero hdata, id, List.Pairwise.nil, ?_, ?_, ?_, ?_, ?_⟩, fun _ => rfl,
    ?_, ?_, List.nodup_nil, ?_⟩, rfl⟩
  all_goals simp

/-- The blocks of a heap are big enough and disjoint along every run exactly if there is an arena, or
no block from the system is used again for a larger request of its class. -/
theorem blocks_disjoint_iff (b : Build) (size : UInt32) (data : Nat) (room : Bool) (heap : Heap)
    (hinit : init b size data room = .ok heap) (calls : List Call)
    (hproper : Proper b calls ⟨heap, [], []⟩) :
    Upholds b calls ⟨heap, [], []⟩ ↔ 0 < size.toNat ∨ Serves b calls ⟨heap, [], []⟩ := by
  obtain ⟨hkept, hsize⟩ := kept_init hinit
  rw [← hsize]
  exact hkept.upholds_iff (fun l hl => absurd hl List.not_mem_nil) hproper

theorem Proper.cons (hrun : call.run b t = .ok (some t')) (hcall : call.Proper t)
    (hrest : Proper b calls t') : Proper b (call :: calls) t :=
  ⟨hcall, Call.forall_of_run hrun hrest⟩

/-- In an arena of 2 MB a block for 17 bytes is used again for 48. -/
theorem blocks_disjoint_arena : ∃ heap, init (Build.twoWay false false) 2097152 4096 true = .ok heap ∧
    Upholds (Build.twoWay false false) [.malloc 17 0, .free 4112, .malloc 48 0] ⟨heap, [], []⟩ := by
  refine ⟨_, rfl, (blocks_disjoint_iff _ 2097152 4096 true _ rfl _ ?_).mpr (.inl (by decide))⟩
  refine .cons rfl ⟨by decide, fun hsize => absurd hsize (by decide)⟩ ?_
  refine .cons rfl (show 4112 ∈ [4112] by decide) ?_
  exact ⟨⟨by decide, fun hsize => absurd hsize (by decide)⟩, fun _ _ => trivial⟩

/-- Without an arena a block for 129 bytes, 145 with the header, is handed out again for 240 bytes of
the same class, and overlaps the block behind it. -/
theorem malloc_overlaps : ∃ heap t,
    init (Build.twoWay false false) 0 4096 true = .ok heap ∧
    Proper (Build.twoWay false false)
      [.malloc 129 8192, .malloc 100 8352, .free 8208, .malloc 240 0] ⟨heap, [], []⟩ ∧
    (∃ t1 t2 t3, (Call.malloc 129 8192).run (Build.twoWay false false) ⟨heap, [], []⟩ = .ok (some t1) ∧
      (Call.malloc 100 8352).run (Build.twoWay false false) t1 = .ok (some t2) ∧
      (Call.free 8208).run (Build.twoWay false false) t2 = .ok (some t3) ∧
      (Call.malloc 240 0).run (Build.twoWay false false) t3 = .ok (some t)) ∧
    t.obtained = [⟨8352, 116⟩, ⟨8192, 145⟩] ∧ t.live = [⟨8208, 240⟩, ⟨8368, 100⟩] ∧
    ¬ Region.Disjoint ⟨8208, 240⟩ ⟨8368, 100⟩ := by
  refine ⟨_, _, rfl, ?_, ⟨_, _, _, rfl, rfl, rfl, rfl⟩, rfl, rfl, by decide⟩
  refine .cons rfl ⟨by decide, fun _ _ _ => show ∀ s ∈ [], _ by simp⟩ ?_
  refine .cons rfl ⟨by decide, fun _ _ _ =>
    show ∀ s ∈ [⟨8192, 145⟩], Region.Disjoint ⟨8352, 116⟩ s by decide⟩ ?_
  refine .cons rfl (show 8208 ∈ [8368, 8208] by decide) ?_
  exact ⟨⟨by decide, fun _ hempty => absurd hempty (by decide)⟩, fun _ _ => trivial⟩

end HeapRun

end LibSei
