-- SUMMARY: The traversal allocator `talloc` and the trash bin `tbin`: replayed allocations, delayed frees and their checks.
import LibSei.Machine.Env

/-!
# Allocations and frees of a traversal

Phase 0 allocates and the later phases are handed the same blocks in order. Frees
are put aside per phase and executed once at commit, when all phases agree on them.
-/

namespace LibSei

open Memory Control

/-- `TALLOC_MAX_ALLOCS`. -/
def tallocMaxAllocs : Nat := 20000

/-- `TBIN_SIZE`. -/
def tbinSize : Nat := 10000

/-! ## talloc -/

/-- `talloc_allocation_t`. -/
structure TallocAllocation where
  addr : Nat
  size : Nat
  deriving DecidableEq, Repr

/-- `struct talloc`, for the system allocator. `size p` counts the allocations of
phase `p`; entries of `allocations` past it are what earlier traversals left. -/
@[ext] structure Talloc where
  p : Nat
  redundancyLevel : Nat
  allocations : Nat → TallocAllocation
  size : Nat → Nat

namespace Talloc

/-- `talloc_init`. -/
def init (b : Build) : Talloc := ⟨0, b.redundancy, fun _ => ⟨0, 0⟩, fun _ => 0⟩

/-- `talloc_malloc`. -/
def malloc (env : Env) (b : Build) (t : Talloc) (size : Nat) (m : Machine) :
    Exec (Nat × Talloc × Machine) := do
  b.assert (0 ≤ t.p ∧ t.p < b.redundancy) "talloc->p >= 0 && talloc->p < SEI_DMR_REDUNDANCY"
  if t.p = 0 then
    b.assert (t.size 0 + 1 < tallocMaxAllocs) "cant allocate"
    inBounds (t.size 0 < tallocMaxAllocs) "talloc->allocations"
    let (addr, m) := m.malloc env size
    b.assert (addr ≠ 0) "out of memory"
    return (addr, { t with
      allocations := Function.update t.allocations (t.size 0) ⟨addr, size⟩
      size := Function.update t.size 0 (t.size 0 + 1) }, m)
  else
    b.assert (t.p > 0 ∧ t.p < b.redundancy) "talloc->p > 0 && talloc->p < SEI_DMR_REDUNDANCY"
    inBounds (t.p < b.redundancy) "talloc->size"
    inBounds (t.size t.p < tallocMaxAllocs) "talloc->allocations"
    return ((t.allocations (t.size t.p)).addr,
      { t with size := Function.update t.size t.p (t.size t.p + 1) }, m)

/-- `talloc_switch`. -/
def switch (b : Build) (t : Talloc) : Exec Talloc := do
  b.assert (0 ≤ t.p ∧ t.p + 1 < t.redundancyLevel)
    "talloc->p >= 0 && talloc->p < talloc->redundancy_level - 1"
  b.assert (t.size (t.p + 1) = 0) "talloc->size[next_phase] == 0"
  return { t with p := t.p + 1 }

/-- The counters after `talloc_clean` and `talloc_rollback`. -/
def resetCounters (t : Talloc) : Talloc :=
  { t with p := 0, size := fun i => if i < t.redundancyLevel then 0 else t.size i }

/-- `talloc_clean`. -/
def clean (b : Build) (t : Talloc) : Exec Talloc := do
  b.assert (t.p + 1 = t.redundancyLevel) "must be in final phase"
  checkLoop (fun i => failIfn (t.size i = t.size 0) "number of allocations in traversals differ")
    (t.redundancyLevel - 1) 1
  return t.resetCounters

/-- `talloc_can_commit`. -/
def canCommit (t : Talloc) : Exec Bool :=
  Checks.verdict <| checkLoop (fun i => Checks.unlessReturnZero (t.size i = t.size 0))
    (t.redundancyLevel - 1) 1

/-- The frees of `talloc_rollback`, from allocation `i` on. -/
def freeAllocations (env : Env) : Nat → Nat → (Nat → TallocAllocation) → Machine →
    (Nat → TallocAllocation) × Machine
  | 0, _, allocations, m => (allocations, m)
  | n + 1, i, allocations, m =>
      if (allocations i).addr ≠ 0 then
        freeAllocations env n (i + 1)
          (Function.update allocations i { allocations i with addr := 0 })
          (m.free env (allocations i).addr)
      else freeAllocations env n (i + 1) allocations m

/-- `talloc_rollback`. -/
def rollback (env : Env) (t : Talloc) (m : Machine) : Talloc × Machine :=
  let (allocations, m) := freeAllocations env (t.size 0) 0 t.allocations m
  ({ t with allocations := allocations }.resetCounters, m)

/-- `talloc_addr_in_range`. -/
def addrInRange (t : Talloc) (addr : Nat) : Bool :=
  (List.range (t.size 0)).any fun i =>
    let a := t.allocations i
    a.addr != 0 && decide (a.addr ≤ addr) && decide (addr < a.addr + a.size)

/-- The byte lies in a block allocated in this transaction: in the part asked for or in
the rest of what the allocator reserved. -/
def InBlock (env : Env) (t : Talloc) (addr : Nat) : Prop :=
  ∃ i < t.size 0, (t.allocations i).addr ≠ 0 ∧ (t.allocations i).addr ≤ addr ∧
    addr < (t.allocations i).addr + max (t.allocations i).size (env.usable (t.allocations i).addr)

/-- All phases below the redundancy level made the same number of allocations. -/
def SameCounts (t : Talloc) : Prop := ∀ p, 1 ≤ p → p < t.redundancyLevel → t.size p = t.size 0

variable {env : Env} {b : Build} {t : Talloc} {m : Machine}

/-- What an allocation does: in phase 0 it asks the allocator and records the block, in later
phases it hands out the recorded one. -/
theorem malloc_eq_ok {t' : Talloc} {m' : Machine} {size addr : Nat}
    (h : t.malloc env b size m = .ok (addr, t', m')) :
    (t.p = 0 ∧ addr = env.malloc m.nalloc size ∧ m' = { m with nalloc := m.nalloc + 1 } ∧
      t' = { t with
        allocations := Function.update t.allocations (t.size 0) ⟨addr, size⟩
        size := Function.update t.size 0 (t.size 0 + 1) }) ∨
    (t.p ≠ 0 ∧ addr = (t.allocations (t.size t.p)).addr ∧ m' = m ∧
      t' = { t with size := Function.update t.size t.p (t.size t.p + 1) }) := by
  unfold malloc at h
  rw [bind_eq_ok] at h
  obtain ⟨_, _, h⟩ := h
  split at h
  · next hp =>
    simp only [bind_eq_ok, pure_eq_ok, Except.ok.injEq, Prod.mk.injEq] at h
    obtain ⟨_, _, _, _, _, _, rfl, rfl, rfl⟩ := h
    exact .inl ⟨hp, rfl, rfl, rfl⟩
  · next hp =>
    simp only [bind_eq_ok, pure_eq_ok, Except.ok.injEq, Prod.mk.injEq] at h
    obtain ⟨_, _, _, _, _, _, rfl, rfl, rfl⟩ := h
    exact .inr ⟨hp, rfl, rfl, rfl⟩

theorem canCommit_eq_true : t.canCommit = .ok true ↔ t.SameCounts := by
  rw [canCommit, Checks.verdict_eq_true, checkLoop_eq_ok]
  refine forall_congr' fun p => forall_congr' fun hp => ?_
  rw [Checks.unlessReturnZero_eq_ok, show p < 1 + (t.redundancyLevel - 1) ↔
    p < t.redundancyLevel by omega]

/-- An allocation finds its place in the table. -/
theorem size_lt_of_malloc {size : Nat} {r : Nat × Talloc × Machine}
    (h : t.malloc env b size m = .ok r) : t.size t.p < tallocMaxAllocs := by
  unfold malloc at h
  rw [bind_eq_ok] at h
  obtain ⟨_, _, h⟩ := h
  split at h
  · next hzero =>
    simp only [bind_eq_ok] at h
    obtain ⟨_, _, _, hplace, _⟩ := h
    rw [hzero]
    exact inBounds_eq_ok.mp hplace
  · simp only [bind_eq_ok] at h
    obtain ⟨_, _, _, _, _, hplace, _⟩ := h
    exact inBounds_eq_ok.mp hplace

/-- In the final phase `talloc_clean` succeeds exactly when the counts agree. -/
theorem clean_eq_ok (hp : t.p + 1 = t.redundancyLevel) {t' : Talloc} :
    t.clean b = .ok t' ↔ t.SameCounts ∧ t' = t.resetCounters := by
  rw [clean, Build.assert_of hp, ok_bind, seq_eq_ok, checkLoop_eq_ok, pure_eq_ok,
    Except.ok.injEq, eq_comm (a := t.resetCounters)]
  refine and_congr ?_ Iff.rfl
  refine forall_congr' fun p => forall_congr' fun _ => ?_
  rw [failIfn_eq_ok, show p < 1 + (t.redundancyLevel - 1) ↔ p < t.redundancyLevel by omega]

/-- Freeing the allocations leaves every byte outside them alone. -/
theorem freeAllocations_mem_outside {n i : Nat} {allocations : Nat → TallocAllocation} {addr : Nat}
    (h : ∀ j, i ≤ j → j < i + n → (allocations j).addr ≠ 0 →
      ¬ ((allocations j).addr ≤ addr ∧
        addr < (allocations j).addr + env.usable (allocations j).addr)) :
    (freeAllocations env n i allocations m).2.mem addr = m.mem addr := by
  induction n generalizing i allocations m with
  | zero => rfl
  | succ n ih =>
    rw [freeAllocations]
    split
    · next hne =>
      rw [ih]
      · exact Machine.free_mem_outside (h i (by omega) (by omega) hne)
      · intro j hlo hhi hj
        rw [Function.update_of_ne (by omega)] at hj ⊢
        exact h j (by omega) (by omega) hj
    · exact ih fun j hlo hhi => h j (by omega) (by omega)

/-- Blocks that are not null are freed in order. -/
theorem freeAllocations_effects {n i : Nat} {allocations : Nat → TallocAllocation}
    (h : ∀ j, i ≤ j → j < i + n → (allocations j).addr ≠ 0) :
    (freeAllocations env n i allocations m).2.trace =
        m.trace ++ (List.range' i n).map (fun j => .freed (allocations j).addr) ∧
      (freeAllocations env n i allocations m).2.nalloc = m.nalloc := by
  induction n generalizing i allocations m with
  | zero => exact ⟨(List.append_nil _).symm, rfl⟩
  | succ n ih =>
    rw [freeAllocations, if_pos (h i (by omega) (by omega))]
    -- clearing block `i` does not touch the blocks still to come
    have hrest : ∀ j, i + 1 ≤ j →
        Function.update allocations i { allocations i with addr := 0 } j = allocations j :=
      fun j hj => Function.update_of_ne (by omega) _ _
    have hnonnull : ∀ j, i + 1 ≤ j → j < i + 1 + n →
        (Function.update allocations i { allocations i with addr := 0 } j).addr ≠ 0 := by
      intro j hlo hhi
      rw [hrest j hlo]
      exact h j (by omega) (by omega)
    obtain ⟨htrace, hnalloc⟩ := ih (m := m.free env (allocations i).addr) hnonnull
    refine ⟨?_, hnalloc⟩
    have hmap : (List.range' (i + 1) n).map (fun j => Effect.freed
          (Function.update allocations i { allocations i with addr := 0 } j).addr) =
        (List.range' (i + 1) n).map fun j => .freed (allocations j).addr :=
      List.map_congr_left fun j hj => by rw [hrest j (List.mem_range'_1.mp hj).1]
    rw [htrace, hmap, List.range'_succ, List.map_cons, Machine.free, List.append_assoc]
    rfl

/-- `talloc_rollback` changes memory only inside the blocks of the transaction. -/
theorem rollback_mem_outside {addr : Nat} (h : ¬ t.InBlock env addr) :
    (t.rollback env m).2.mem addr = m.mem addr := by
  apply freeAllocations_mem_outside
  intro j _ hj hne hin
  exact h ⟨j, by omega, hne, hin.1, by omega⟩

end Talloc

/-! ## tbin -/

/-- `struct tbin`. `items i p` is the pointer of item `i` given by phase `p`. -/
@[ext] structure Tbin where
  maxItems : Nat
  redundancyLevel : Nat
  nitems : Nat → Nat
  items : Nat → Nat → Nat

namespace Tbin

/-- `tbin_init`. -/
def init (b : Build) (maxItems : Nat) : Tbin :=
  ⟨maxItems, b.redundancy, fun _ => 0, fun _ _ => 0⟩

/-- `tbin_add`. -/
def add (b : Build) (t : Tbin) (ptr : Nat) (p : Int) : Exec Tbin := do
  b.assert (0 ≤ p ∧ p < b.redundancy) "invalid p"
  inBounds (0 ≤ p ∧ p < b.redundancy) "tbin->nitems"
  let p := p.toNat
  b.assert (t.nitems p + 1 ≤ t.maxItems) "cannot add item"
  inBounds (t.nitems p < t.maxItems) "tbin->items"
  return { t with
    nitems := Function.update t.nitems p (t.nitems p + 1)
    items := Function.update t.items (t.nitems p)
      (Function.update (t.items (t.nitems p)) p ptr) }

/-- The checks `tbin_flush` and `tbin_can_flush` make on one item. They differ in how
a failed check is answered. -/
def checkItem {ε : Type} (fail : (c : Prop) → [Decidable c] → String → Except ε Unit)
    (t : Tbin) (i : Nat) : Except ε Unit := do
  checkLoop (fun p => fail (t.items i p ≠ 0) "null pointer in phase") t.redundancyLevel 0
  checkLoop (fun p => fail (t.items i 0 = t.items i p) "pointers differ across phases")
    (t.redundancyLevel - 1) 1

/-- The comparison of the item counts, likewise. -/
def checkCounts {ε : Type} (fail : (c : Prop) → [Decidable c] → String → Except ε Unit)
    (t : Tbin) : Except ε Unit :=
  checkLoop (fun p => fail (t.nitems p = t.nitems 0) "number of items differ across phases")
    (t.redundancyLevel - 1) 1

/-- `tbin_can_flush`. -/
def canFlush (t : Tbin) : Exec Bool :=
  Checks.verdict do
    checkCounts (fun c _ _ => Checks.unlessReturnZero c) t
    checkLoop (checkItem (fun c _ _ => Checks.unlessReturnZero c) t) (t.nitems 0) 0

/-- The item loop of `tbin_flush`: check an item, free its pointer, clear it. Clearing
item `i` does not touch the items still to come. -/
def flushItems (env : Env) (t : Tbin) (m : Machine) : Exec Machine :=
  forLoop (fun i m => do
    checkItem failIfn t i
    return m.free env (t.items i 0)) (t.nitems 0) 0 m

/-- The items and counters after `tbin_flush` and `tbin_reset`, which clear the first
`n` items. -/
def clear (t : Tbin) (n : Nat) : Tbin :=
  { t with
    nitems := fun p => if p < t.redundancyLevel then 0 else t.nitems p
    items := fun i p => if i < n ∧ p < t.redundancyLevel then 0 else t.items i p }

/-- `tbin_flush`. -/
def flush (env : Env) (t : Tbin) (m : Machine) : Exec (Tbin × Machine) := do
  checkCounts failIfn t
  let m ← flushItems env t m
  return (t.clear (t.nitems 0), m)

/-- The largest item count of the phases below `n`, and the first. -/
def maxCount (t : Tbin) : Nat → Nat
  | 0 => t.nitems 0
  | n + 1 => if t.nitems n > t.maxCount n then t.nitems n else t.maxCount n

/-- `tbin_reset`. -/
def reset (t : Tbin) : Tbin := t.clear (t.maxCount t.redundancyLevel)

/-- All phases below the redundancy level put the same non-null pointers aside. -/
structure Agree (t : Tbin) : Prop where
  counts : ∀ p, 1 ≤ p → p < t.redundancyLevel → t.nitems p = t.nitems 0
  nonnull : ∀ i < t.nitems 0, ∀ p < t.redundancyLevel, t.items i p ≠ 0
  items : ∀ i < t.nitems 0, ∀ p, 1 ≤ p → p < t.redundancyLevel → t.items i 0 = t.items i p

variable {env : Env} {t : Tbin} {m : Machine}

/-- Phase `p` has put aside the pointers `ptrs`. -/
structure Trashed (t : Tbin) (p : Nat) (ptrs : List Nat) : Prop where
  nitems : t.nitems p = ptrs.length
  items : ∀ i (hi : i < ptrs.length), t.items i p = ptrs[i]

theorem trashed_nil {p : Nat} (h : t.nitems p = 0) : t.Trashed p [] :=
  ⟨h, fun _ hi => absurd hi (Nat.not_lt_zero _)⟩

/-- The slots of phase `p` behind its items are null. -/
def Blank (t : Tbin) (p : Nat) : Prop := ∀ i, t.nitems p ≤ i → t.items i p = 0

/-- What `tbin_add` in phase `p` changes: the counter of the phase and one of its slots. The
capacity stays. -/
theorem add_eq_ok {b : Build} {t' : Tbin} {p ptr : Nat} (h : t.add b ptr p = .ok t') :
    t'.maxItems = t.maxItems ∧
      (∀ q, t'.nitems q = if q = p then t.nitems p + 1 else t.nitems q) ∧
      ∀ i q, t'.items i q = if i = t.nitems p ∧ q = p then ptr else t.items i q := by
  simp only [add, bind_eq_ok, pure_eq_ok, Except.ok.injEq, Int.toNat_natCast] at h
  obtain ⟨_, _, _, _, _, _, _, _, rfl⟩ := h
  refine ⟨rfl, fun q => Function.update_apply _ _ _ _, fun i q => ?_⟩
  simp only [Function.update_apply]
  by_cases hi : i = t.nitems p
  · subst hi
    simp [Function.update_apply]
  · simp [hi]

theorem add_level {b : Build} {t' : Tbin} {p : Int} {ptr : Nat} (h : t.add b ptr p = .ok t') :
    t.redundancyLevel = t'.redundancyLevel := by
  simp only [add, bind_eq_ok, pure_eq_ok, Except.ok.injEq] at h
  obtain ⟨_, _, _, _, _, _, _, _, rfl⟩ := h
  rfl

/-- While there is room a pointer can be put aside. -/
theorem exists_add {b : Build} {p : Nat} (ptr : Nat) (hp : p < b.redundancy)
    (hroom : t.nitems p < t.maxItems) : ∃ t', t.add b ptr p = .ok t' := by
  have hphase : (0 : Int) ≤ p ∧ (p : Int) < b.redundancy := by omega
  have hcount : t.nitems p + 1 ≤ t.maxItems := hroom
  rw [add, Build.assert_of hphase, ok_bind, inBounds_of hphase, ok_bind]
  simp only [Int.toNat_natCast]
  rw [Build.assert_of hcount, ok_bind, inBounds_of hroom, ok_bind]
  exact ⟨_, rfl⟩

/-- A pointer put aside in phase `p` is added to the pointers of this phase. -/
theorem Trashed.of_add {b : Build} {t' : Tbin} {p ptr : Nat} {ptrs : List Nat}
    (h : t.Trashed p ptrs) (hrun : t.add b ptr p = .ok t') : t'.Trashed p (ptrs ++ [ptr]) := by
  obtain ⟨_, hnitems, hitems⟩ := add_eq_ok hrun
  refine ⟨by simp [hnitems, h.nitems], fun i hi => ?_⟩
  rw [hitems, h.nitems]
  rcases Nat.lt_or_ge i ptrs.length with hlt | hge
  · rw [if_neg (by omega), List.getElem_append_left hlt, h.items i hlt]
  · obtain rfl : i = ptrs.length := by
      rw [List.length_append, List.length_singleton] at hi
      omega
    rw [if_pos ⟨rfl, rfl⟩, List.getElem_concat_length]
    rfl

/-- The pointers of the other phases stay. -/
theorem Trashed.of_add_ne {b : Build} {t' : Tbin} {p q ptr : Nat} {ptrs : List Nat}
    (h : t.Trashed q ptrs) (hq : q ≠ p) (hrun : t.add b ptr p = .ok t') : t'.Trashed q ptrs := by
  obtain ⟨_, hnitems, hitems⟩ := add_eq_ok hrun
  refine ⟨by rw [hnitems, if_neg hq, h.nitems], fun i hi => ?_⟩
  rw [hitems, if_neg fun h => hq h.2, h.items i hi]

theorem Blank.of_add {b : Build} {t' : Tbin} {p ptr q : Nat} (h : t.Blank q)
    (hrun : t.add b ptr p = .ok t') : t'.Blank q := by
  obtain ⟨_, hnitems, hitems⟩ := add_eq_ok hrun
  intro i hi
  rw [hnitems] at hi
  by_cases hq : q = p
  · subst hq
    rw [if_pos rfl] at hi
    rw [hitems, if_neg (by omega), h i (by omega)]
  · rw [if_neg hq] at hi
    rw [hitems, if_neg fun h => hq h.2, h i hi]

/-- No counter and no slot holds anything. -/
structure Clean (t : Tbin) : Prop where
  nitems : ∀ p, t.nitems p = 0
  items : ∀ i p, t.items i p = 0

theorem nitems_le_maxCount {n p : Nat} (hp : p < n) : t.nitems p ≤ t.maxCount n := by
  induction n with
  | zero => exact absurd hp (Nat.not_lt_zero p)
  | succ n ih =>
    rw [maxCount]
    rcases Nat.lt_succ_iff_lt_or_eq.mp hp with hlt | rfl
    · have := ih hlt
      split <;> omega
    · split <;> omega

/-- Clearing as many items as any phase has leaves nothing, if only the phases of the
transaction have items and the slots behind them are null. -/
theorem clean_clear {n : Nat} (hblank : ∀ p, t.Blank p)
    (hbeyond : ∀ p, t.redundancyLevel ≤ p → t.nitems p = 0)
    (hcount : ∀ p < t.redundancyLevel, t.nitems p ≤ n) : (t.clear n).Clean := by
  constructor
  · intro p
    show (if p < t.redundancyLevel then 0 else t.nitems p) = 0
    split
    · rfl
    · exact hbeyond p (by omega)
  · intro i p
    show (if i < n ∧ p < t.redundancyLevel then 0 else t.items i p) = 0
    split
    · rfl
    · next hkept =>
      refine hblank p i ?_
      rcases Nat.lt_or_ge p t.redundancyLevel with hlt | hge
      · have := hcount p hlt
        omega
      · rw [hbeyond p hge]
        exact Nat.zero_le i

/-- The frees of a flush, in order. -/
def freeItems (env : Env) (t : Tbin) : Nat → Machine → Machine
  | 0, m => m
  | n + 1, m => (freeItems env t n m).free env (t.items n 0)

theorem freeItems_effects {ptrs : List Nat} (h : t.Trashed 0 ptrs) {n : Nat} (hn : n ≤ ptrs.length) :
    (freeItems env t n m).trace = m.trace ++ (ptrs.take n).map .freed ∧
      (freeItems env t n m).nalloc = m.nalloc := by
  induction n with
  | zero => exact ⟨by simp [freeItems], rfl⟩
  | succ n ih =>
    obtain ⟨htrace, hnalloc⟩ := ih (by omega)
    refine ⟨?_, hnalloc⟩
    rw [freeItems, Machine.free, htrace, h.items n hn, List.take_succ_eq_append_getElem hn,
      List.map_append, List.append_assoc]
    rfl

/-- Phases that put the same non-null pointers aside agree. -/
theorem agree_of_trashed {ptrs : List Nat} (hlevel : 0 < t.redundancyLevel)
    (h : ∀ p < t.redundancyLevel, t.Trashed p ptrs) (hnonnull : ∀ ptr ∈ ptrs, ptr ≠ 0) :
    t.Agree where
  counts p _ hp := by rw [(h p hp).nitems, (h 0 hlevel).nitems]
  nonnull i hi p hp := by
    rw [(h 0 hlevel).nitems] at hi
    rw [(h p hp).items i hi]
    exact hnonnull _ (List.getElem_mem hi)
  items i hi p _ hp := by
    rw [(h 0 hlevel).nitems] at hi
    rw [(h 0 hlevel).items i hi, (h p hp).items i hi]

theorem checkCounts_eq_ok {ε : Type} {fail : (c : Prop) → [Decidable c] → String → Except ε Unit}
    (hfail : ∀ (c : Prop) [Decidable c] (s : String), fail c s = .ok () ↔ c) {u : Unit} :
    checkCounts fail t = .ok u ↔ ∀ p, 1 ≤ p → p < t.redundancyLevel → t.nitems p = t.nitems 0 := by
  rw [checkCounts, checkLoop_eq_ok]
  refine forall_congr' fun p => forall_congr' fun _ => ?_
  rw [hfail, show p < 1 + (t.redundancyLevel - 1) ↔ p < t.redundancyLevel by omega]

theorem checkItem_eq_ok {ε : Type} {fail : (c : Prop) → [Decidable c] → String → Except ε Unit}
    (hfail : ∀ (c : Prop) [Decidable c] (s : String), fail c s = .ok () ↔ c) {i : Nat} {u : Unit} :
    checkItem fail t i = .ok u ↔ (∀ p < t.redundancyLevel, t.items i p ≠ 0) ∧
      ∀ p, 1 ≤ p → p < t.redundancyLevel → t.items i 0 = t.items i p := by
  rw [checkItem, seq_eq_ok, checkLoop_eq_ok, checkLoop_eq_ok]
  refine and_congr ?_ ?_
  · simp only [Nat.zero_le, true_implies, Nat.zero_add, hfail]
  · refine forall_congr' fun p => forall_congr' fun _ => ?_
    rw [hfail, show p < 1 + (t.redundancyLevel - 1) ↔ p < t.redundancyLevel by omega]

theorem canFlush_eq_true : t.canFlush = .ok true ↔ t.Agree := by
  have hfail : ∀ (c : Prop) [Decidable c] (s : String),
      (fun (c : Prop) [Decidable c] (_ : String) => Checks.unlessReturnZero c) c s = .ok () ↔ c :=
    fun c _ _ => Checks.unlessReturnZero_eq_ok
  rw [canFlush, Checks.verdict_eq_true, seq_eq_ok, checkCounts_eq_ok hfail, checkLoop_eq_ok]
  simp only [Nat.zero_le, true_implies, Nat.zero_add, checkItem_eq_ok hfail]
  constructor
  · rintro ⟨hcounts, hitems⟩
    exact ⟨hcounts, fun i hi => (hitems i hi).1, fun i hi => (hitems i hi).2⟩
  · rintro ⟨hcounts, hnonnull, hitems⟩
    exact ⟨hcounts, fun i hi => ⟨hnonnull i hi, hitems i hi⟩⟩

/-- A flush that succeeds has found equal counts. -/
theorem flush_eq_ok {t' : Tbin} {m' : Machine} (h : t.flush env m = .ok (t', m')) :
    (∀ p, 1 ≤ p → p < t.redundancyLevel → t.nitems p = t.nitems 0) ∧ t' = t.clear (t.nitems 0) := by
  simp only [flush, bind_eq_ok, pure_eq_ok, Except.ok.injEq, Prod.mk.injEq] at h
  obtain ⟨_, hcounts, _, _, rfl, _⟩ := h
  exact ⟨(checkCounts_eq_ok fun _ _ _ => failIfn_eq_ok).mp hcounts, rfl⟩

/-- A flush that succeeds has found the phases in agreement. -/
theorem agree_of_flush {r : Tbin × Machine} (h : t.flush env m = .ok r) : t.Agree := by
  have hfail : ∀ (c : Prop) [Decidable c] (s : String), failIfn c s = .ok () ↔ c :=
    fun c _ _ => failIfn_eq_ok
  have hstep : ∀ i (m m' : Machine),
      (do checkItem failIfn t i; return m.free env (t.items i 0)) = Except.ok m' ↔
        ((∀ p < t.redundancyLevel, t.items i p ≠ 0) ∧
          ∀ p, 1 ≤ p → p < t.redundancyLevel → t.items i 0 = t.items i p) ∧
        m' = m.free env (t.items i 0) := by
    intro i m m'
    rw [seq_eq_ok, checkItem_eq_ok hfail, pure_eq_ok, Except.ok.injEq, eq_comm (b := m')]
  simp only [flush, bind_eq_ok] at h
  obtain ⟨_, hcounts, m', hitems, _⟩ := h
  have hall := ((forLoop_eq_ok hstep).mp hitems).1
  have hitem : ∀ i < t.nitems 0, i ∈ List.range' 0 (t.nitems 0) := fun i hi =>
    List.mem_range'_1.mpr ⟨Nat.zero_le i, by omega⟩
  exact {
    counts := (checkCounts_eq_ok hfail).mp hcounts
    nonnull := fun i hi => (hall i (hitem i hi)).1
    items := fun i hi => (hall i (hitem i hi)).2 }

/-- Without pointers put aside nothing is freed. -/
theorem flush_of_none {t' : Tbin} {m' : Machine} (h : t.flush env m = .ok (t', m'))
    (hnone : t.nitems 0 = 0) : m' = m := by
  simp only [flush, flushItems, hnone, forLoop_zero, bind_eq_ok, pure_eq_ok, Except.ok.injEq,
    Prod.mk.injEq] at h
  obtain ⟨_, _, _, rfl, _, rfl⟩ := h
  rfl

/-- A flush of agreeing phases frees each pointer once, in order, and empties the bin. -/
theorem flush_of_agree (h : t.Agree) :
    t.flush env m = .ok (t.clear (t.nitems 0), freeItems env t (t.nitems 0) m) := by
  have hfail : ∀ (c : Prop) [Decidable c] (s : String), failIfn c s = .ok () ↔ c :=
    fun c _ _ => failIfn_eq_ok
  obtain ⟨m', hrun, hm'⟩ : ∃ m', flushItems env t m = .ok m' ∧
      m' = freeItems env t (0 + t.nitems 0) m := by
    refine forLoop_total (P := fun i m' => m' = freeItems env t i m) ?_ rfl
    intro i m' _ hi hm'
    refine ⟨_, ?_, rfl⟩
    rw [(checkItem_eq_ok hfail (u := ())).mpr ⟨h.nonnull i (by omega), h.items i (by omega)⟩,
      ok_bind, hm']
    rfl
  rw [flush, (checkCounts_eq_ok hfail (u := ())).mpr h.counts, ok_bind, hrun, hm', Nat.zero_add]
  rfl

end Tbin

end LibSei
