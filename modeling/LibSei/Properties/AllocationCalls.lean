-- SUMMARY: For which arguments the transactional calloc, realloc and free of a null pointer behave as in C.
import LibSei.Itm.Calls
import LibSei.ModeCow.Sequence
import Mathlib.Logic.Relation

/-!
# Allocation calls

`_ITM_calloc` is an allocation of the product of its arguments, `_ZGTt7realloc` allocates, copies
as many bytes as the new block has and frees the old block, and `_ITM_free` puts its argument
aside whatever it is. The result here says when this is what the C functions do.
-/

namespace LibSei

open Memory Control

/-! ## Null pointers in the trash bin -/

namespace Tbin

variable {env : Env} {b : Build} {t t' : Tbin} {p : Nat} {m : Machine}

/-- Phase `p` of the transaction has put a null pointer aside. -/
def HasNull (t : Tbin) (p : Nat) : Prop :=
  p < t.redundancyLevel ∧ ∃ i < t.nitems p, t.items i p = 0

theorem HasNull.not_agree (h : t.HasNull p) : ¬ t.Agree := by
  obtain ⟨hlevel, i, hi, hnull⟩ := h
  intro hagree
  have hcount : t.nitems p = t.nitems 0 := by
    rcases Nat.eq_zero_or_pos p with rfl | hpos
    · rfl
    · exact hagree.counts p hpos hlevel
  exact hagree.nonnull i (hcount ▸ hi) p hlevel hnull

theorem HasNull.of_add {ptr : Nat} {q : Int} (h : t.HasNull p) (hrun : t.add b ptr q = .ok t') :
    t'.HasNull p := by
  obtain ⟨hlevel, i, hi, hnull⟩ := h
  have hphase : 0 ≤ q := by
    simp only [add, bind_eq_ok] at hrun
    obtain ⟨_, _, _, hbounds, _⟩ := hrun
    exact (inBounds_eq_ok.mp hbounds).1
  obtain ⟨k, rfl⟩ := Int.eq_ofNat_of_zero_le hphase
  obtain ⟨_, hnitems, hitems⟩ := add_eq_ok hrun
  refine ⟨add_level hrun ▸ hlevel, i, ?_, ?_⟩
  · rw [hnitems]
    split
    · next hp => exact Nat.lt_succ_of_lt (hp ▸ hi)
    · exact hi
  · rw [hitems, if_neg, hnull]
    rintro ⟨rfl, rfl⟩
    omega

theorem hasNull_of_add_null (hp : p < t.redundancyLevel) (hrun : t.add b 0 p = .ok t') :
    t'.HasNull p := by
  obtain ⟨_, hnitems, hitems⟩ := add_eq_ok hrun
  refine ⟨add_level hrun ▸ hp, t.nitems p, ?_, ?_⟩
  · rw [hnitems, if_pos rfl]
    exact Nat.lt_succ_self _
  · rw [hitems, if_pos ⟨rfl, rfl⟩]

end Tbin

namespace Talloc

/-- The address the next request of `size` bytes is answered with. -/
def next (env : Env) (t : Talloc) (m : Machine) (size : Nat) : Nat :=
  if t.p = 0 then env.malloc m.nalloc size else (t.allocations (t.size t.p)).addr

theorem malloc_eq_next {env : Env} {b : Build} {t t' : Talloc} {m m' : Machine} {size addr : Nat}
    (h : t.malloc env b size m = .ok (addr, t', m')) : addr = t.next env m size ∧ m'.mem = m.mem := by
  unfold next
  rcases malloc_eq_ok h with ⟨hp, rfl, rfl, _⟩ | ⟨hp, rfl, rfl, _⟩
  · exact ⟨(if_pos hp).symm, rfl⟩
  · exact ⟨(if_neg hp).symm, rfl⟩

end Talloc

namespace Tmi

variable {env : Env} {b : Build} {t t' : Tmi} {sp p : Nat}

/-! ## calloc -/

/-- What a call of calloc may return: no block, or one that is zero. -/
def Zeroed (nmemb size r : Nat) (mem : Mem) : Prop :=
  r = 0 ∨ nmemb * size < 2 ^ 64 ∧ ∀ i < nmemb * size, mem (r + i) = 0

/-- The block is as the allocator has left it. -/
theorem itmCalloc_zeroed_iff {nmemb size : UInt64} {r : Nat}
    (h : t.itmCalloc env b nmemb size = .ok (r, t')) :
    Zeroed nmemb.toNat size.toNat r t'.machine.mem ↔
      Zeroed nmemb.toNat size.toNat
        (t.sei.talloc.next env t.machine (nmemb.toNat * size.toNat % 2 ^ 64)) t.machine.mem := by
  simp only [itmCalloc, World.malloc, bind_eq_ok, pure_eq_ok, Except.ok.injEq] at h
  obtain ⟨_, ⟨⟨addr, talloc, m⟩, hmalloc, rfl⟩, heq⟩ := h
  obtain ⟨rfl, rfl⟩ := Prod.mk.inj heq
  obtain ⟨haddr, hmem⟩ := Talloc.malloc_eq_next hmalloc
  rw [UInt64.toNat_mul] at haddr
  rw [← haddr, ← hmem]
  rfl

/-! ## malloc -/

/-- The address the next request of `size` bytes is answered with. -/
def nextBlock (env : Env) (t : Tmi) (size : Nat) : Nat :=
  if t.ignore.allf ≠ 0 then env.malloc t.machine.nalloc size
  else t.sei.talloc.next env t.machine size

/-- What `_ITM_malloc` leaves. The block is on the list of ignored ranges while all allocations
are ignored. -/
structure Allocated (env : Env) (t : Tmi) (size r : Nat) (t' : Tmi) : Prop where
  addr : r = t.nextBlock env size
  mem : t'.machine.mem = t.machine.mem
  tbin : t'.sei.tbin = t.sei.tbin
  cow : t'.sei.cow = t.sei.cow
  phase : t'.sei.p = t.sei.p
  ignored : t.sei.p ≠ -1 → ∀ sp,
    (t'.ignoreAddr sp r = true ↔ t.ignore.allf ≠ 0 ∨ t.ignoreAddr sp r = true)

/-- Inside a transaction an ignored range covers its bytes from then on. -/
theorem covers_of_seiIgnoreAddr {start stop ptr : Nat} (hp : t.sei.p ≠ -1)
    (h : t.seiIgnoreAddr b start stop = .ok t') (hptr : start ≤ ptr ∧ ptr ≤ stop) :
    t'.ignore.covers ptr = true := by
  rw [seiIgnoreAddr, if_neg hp] at h
  split at h
  · next hlisted =>
    cases h
    exact Ignore.covers_of_listed hlisted hptr
  · rw [bind_eq_ok] at h
    obtain ⟨g, happend, ⟨⟩⟩ := h
    exact (Ignore.append_covers happend).mpr (.inr hptr)

theorem itmMalloc_spec {size r : Nat} (h : t.itmMalloc env b size = .ok (r, t')) :
    Allocated env t size r t' := by
  unfold itmMalloc at h
  split at h
  · next hall =>
    simp only [bind_eq_ok] at h
    obtain ⟨t1, hadd, ⟨⟩⟩ := h
    obtain ⟨g, hg⟩ := seiIgnoreAddr_frame hadd
    refine ⟨(if_pos hall).symm, by rw [hg]; rfl, by rw [hg], by rw [hg], by rw [hg], fun hp sp => ?_⟩
    have hcovers : t'.ignore.covers (t.machine.malloc env size).1 = true := by
      refine covers_of_seiIgnoreAddr ?_ hadd ⟨le_refl _, Nat.le_add_right _ _⟩
      exact hp
    refine iff_of_true ?_ (.inl hall)
    rw [ignoreAddr, Bool.or_eq_true]
    exact .inr hcovers
  · next hall =>
    simp only [World.malloc, bind_eq_ok] at h
    obtain ⟨_, ⟨⟨addr, talloc, m⟩, hmalloc, ⟨⟩⟩, ⟨⟩⟩ := h
    obtain ⟨rfl, hmem⟩ := Talloc.malloc_eq_next hmalloc
    refine ⟨(if_neg hall).symm, hmem, rfl, rfl, rfl, fun _ sp => ?_⟩
    exact ⟨.inr, fun h => h.resolve_left hall⟩

/-! ## free -/

variable (env b) in
/-- The handler goes on: with an operation, or as the next phase. -/
inductive HandlerStep : Tmi → Tmi → Prop
  | op {t t' : Tmi} {o : Op} {r : Option Int32} : t.op env b o = .ok (r, t') → HandlerStep t t'
  | reexecute {t t' : Tmi} : t.seiCommit env b = .ok (.reexecute, t') → HandlerStep t t'

variable (env b) in
/-- However the transaction goes on, its commit is refused. -/
def Doomed (t : Tmi) : Prop :=
  ∀ t', Relation.ReflTransGen (HandlerStep env b) t t' →
    t'.sei.tbin.canFlush ≠ .ok true ∧ (∀ m r, t'.sei.tbin.flush env m ≠ .ok r) ∧
      ∀ t'', t'.seiCommit env b ≠ .ok (.committed, t'')

theorem tbin_of_call (env : Env) (c : Call) {w : World} (h : t.world.call env b c = .ok w)
    (hc : c.freed? = none) : w.sei.tbin = t.sei.tbin := (World.call_frame h).tbin hc

/-- An operation leaves the trash bin alone or adds a pointer. -/
theorem op_tbin {o : Op} {r : Option Int32} (h : t.op env b o = .ok (r, t')) :
    t'.sei.tbin = t.sei.tbin ∨ ∃ ptr, t.sei.tbin.add b ptr t.sei.p = .ok t'.sei.tbin := by
  cases o with
  | write sp ty addr value =>
    simp only [op, itmWrite, bind_eq_ok] at h
    obtain ⟨_, h, ⟨⟩⟩ := h
    split at h
    · cases h
      exact .inl rfl
    · rw [bind_eq_ok] at h
      obtain ⟨w, hwrite, ⟨⟩⟩ := h
      exact .inl (tbin_of_call env (.write ty addr value) hwrite rfl)
  | malloc size =>
    simp only [op, bind_eq_ok] at h
    obtain ⟨⟨r, t1⟩, hmalloc, ⟨⟩⟩ := h
    exact .inl (itmMalloc_spec hmalloc).tbin
  | free ptr =>
    simp only [op, itmFree, bind_eq_ok] at h
    obtain ⟨_, h, ⟨⟩⟩ := h
    split at h
    · cases h
      exact .inl rfl
    · simp only [World.free, bind_eq_ok] at h
      obtain ⟨_, ⟨tbin, hadd, ⟨⟩⟩, ⟨⟩⟩ := h
      exact .inr ⟨ptr, hadd⟩
  | outputAppend ptr size =>
    simp only [op, bind_eq_ok] at h
    obtain ⟨w, happend, ⟨⟩⟩ := h
    exact .inl (tbin_of_call env (.outputAppend ptr size) happend rfl)
  | outputDone =>
    simp only [op, bind_eq_ok] at h
    obtain ⟨w, hdone, ⟨⟩⟩ := h
    exact .inl (tbin_of_call env .outputDone hdone rfl)
  | ignore v =>
    cases h
    exact .inl rfl
  | ignoreAll v =>
    cases h
    exact .inl rfl
  | ignoreAddr start stop =>
    simp only [op, bind_eq_ok] at h
    obtain ⟨_, hadd, ⟨⟩⟩ := h
    obtain ⟨g, rfl⟩ := seiIgnoreAddr_frame hadd
    exact .inl rfl
  | sys c real =>
    simp only [op, bind_eq_ok] at h
    obtain ⟨_, _, ⟨⟩⟩ := h
    exact .inl rfl
  | lock o real =>
    simp only [op, bind_eq_ok] at h
    obtain ⟨_, _, ⟨⟩⟩ := h
    exact .inl rfl

theorem HandlerStep.hasNull (h : HandlerStep env b t t') (hnull : t.sei.tbin.HasNull p) :
    t'.sei.tbin.HasNull p := by
  cases h with
  | op h =>
    rcases op_tbin h with hsame | ⟨ptr, hadd⟩
    · rwa [hsame]
    · exact hnull.of_add hadd
  | reexecute h =>
    rcases seiCommit_cases h with ⟨_, _, hswitch⟩ | ⟨hnext, _⟩ | ⟨hnext, _⟩
    · simp only [switchPhase, bind_eq_ok] at hswitch
      obtain ⟨w, hrun, ⟨⟩⟩ := hswitch
      have hsame : w.sei.tbin = t.sei.tbin := (World.switch_frame hrun).2.2.2.1
      show w.sei.tbin.HasNull p
      rwa [hsame]
    · cases hnext
    · cases hnext

/-- A null pointer put aside stays until the commit, which does not accept it. -/
theorem doomed_of_hasNull (h : t.sei.tbin.HasNull p) : Doomed env b t := by
  intro t' hsteps
  have hnull : t'.sei.tbin.HasNull p := by
    induction hsteps with
    | refl => exact h
    | tail _ hstep ih => exact hstep.hasNull ih
  refine ⟨fun hflush => hnull.not_agree (Tbin.canFlush_eq_true.mp hflush),
    fun m r hflush => hnull.not_agree (Tbin.agree_of_flush hflush), fun t'' hcommit => ?_⟩
  rcases seiCommit_cases hcommit with ⟨hnext, _⟩ | ⟨hnext, _⟩ | ⟨_, _, w, hcommitted, _⟩
  · cases hnext
  · cases hnext
  · obtain ⟨m, _, hfrees⟩ := hcommitted.effects
    exact hnull.not_agree (Tbin.agree_of_flush hfrees)

/-- Freeing a null pointer leaves the thread as it is exactly when an ignore range starts there,
and dooms the transaction otherwise. -/
theorem itmFree_null_iff (hp : t.sei.p = p) (hlevel : p < t.sei.tbin.redundancyLevel) :
    ((∃ t', t.itmFree env b 0 = .ok t' ∧ t'.toSeiThread = t.toSeiThread ∧ t'.ignore = t.ignore) ↔
        t.ignore.starts 0 = true) ∧
      (t.ignore.starts 0 = false → ∀ t', t.itmFree env b 0 = .ok t' → Doomed env b t') := by
  cases hstarts : t.ignore.starts 0 with
  | true =>
    have hfree : t.itmFree env b 0 = .ok { t with machine := t.machine.free env 0 } := if_pos hstarts
    exact ⟨iff_of_true ⟨_, hfree, rfl, rfl⟩ rfl, fun hnot => Bool.noConfusion hnot⟩
  | false =>
    have hadds : ∀ t', t.itmFree env b 0 = .ok t' → t.sei.tbin.add b 0 p = .ok t'.sei.tbin := by
      intro t' h
      rw [itmFree, hstarts] at h
      simp only [Bool.false_eq_true, if_false, World.free, bind_eq_ok] at h
      obtain ⟨_, ⟨tbin, hadd, ⟨⟩⟩, ⟨⟩⟩ := h
      exact hp ▸ hadd
    constructor
    · refine iff_of_false ?_ (by decide)
      rintro ⟨t', hfree, hsame, _⟩
      have hcount := (Tbin.add_eq_ok (hadds t' hfree)).2.1 p
      rw [hsame, if_pos rfl] at hcount
      omega
    · intro _ t' hfree
      exact doomed_of_hasNull (Tbin.hasNull_of_add_null hlevel (hadds t' hfree))

/-! ## realloc -/

/-- The stores of the copy in `_ZGTt7realloc`. -/
def reallocStores (sp : Nat) (t : Tmi) (q : Nat) (ptr size : UInt64) (fuel : Nat) : List Write :=
  if q ≠ 0 ∧ ptr ≠ 0 then (WriteCall.memcpy (UInt64.ofNat q) ptr size fuel).stores sp t else []

/-- `_ZGTt7realloc`, whose allocation has returned `q` and left `t1`, gets past its copy, the copy
stores to the first `n` bytes of the new block, and these are then those of the old one. Without
a block there is no copy. -/
def ReallocCopies (env : Env) (b : Build) (sp : Nat) (t : Tmi) (ptr size : UInt64) (fuel n q : Nat)
    (t1 : Tmi) : Prop :=
  ∃ t2, t1.reallocCopy b sp q ptr size fuel = .ok (true, t2) ∧
    (t.zgttRealloc env b sp ptr size fuel = do
      let t' ← t2.reallocFree env b ptr
      return (some q, t')) ∧
    t2.machine.mem = runWrites (t1.reallocStores sp q ptr size fuel) t1.machine.mem ∧
    (∀ byte, (∃ w ∈ t1.reallocStores sp q ptr size fuel, w.Covers byte) ↔
      q ≠ 0 ∧ ptr ≠ 0 ∧ q ≤ byte ∧ byte < q + n) ∧
    (q ≠ 0 → ptr ≠ 0 → ∀ i < n, t2.machine.mem (q + i) = t.machine.mem (ptr.toNat + i))

theorem zgttRealloc_of_copied {ptr size : UInt64} {fuel q : Nat} {t1 t2 : Tmi}
    (hmalloc : t.itmMalloc env b size.toNat = .ok (q, t1))
    (hcopy : t1.reallocCopy b sp q ptr size fuel = .ok (true, t2)) :
    t.zgttRealloc env b sp ptr size fuel = do
      let t' ← t2.reallocFree env b ptr
      return (some q, t') := by
  rw [zgttRealloc, hmalloc, ok_bind, hcopy, ok_bind]
  rfl

/-- Two ranges from the same address are the same exactly when they are equally long. -/
theorem range_eq_iff {q m n : Nat} :
    (∀ byte, q ≤ byte ∧ byte < q + m ↔ q ≤ byte ∧ byte < q + n) ↔ m = n := by
  constructor
  · intro h
    have hm := h (q + m)
    have hn := h (q + n)
    omega
  · rintro rfl byte
    rfl

section Copy

variable {ptr : UInt64} {q : Nat} (size : UInt64) (fuel : Nat) (hq : q ≠ 0) (hptr : ptr ≠ 0)
  (hqlt : q < 2 ^ 64)

include hq hptr hqlt

/-- A copy to an ignored block is made by the C library. -/
theorem reallocCopy_of_ignored (hig : t.ignoreAddr sp q = true) :
    ∃ t2, t.reallocCopy b sp q ptr size fuel = .ok (true, t2) ∧
      t2.machine.mem = runWrites (t.reallocStores sp q ptr size fuel) t.machine.mem ∧
      t2.machine.mem =
        fill (copiedByte t.machine.mem q ptr.toNat) q (q + size.toNat) t.machine.mem ∧
      ∀ byte, (∃ w ∈ t.reallocStores sp q ptr size fuel, w.Covers byte) ↔
        q ≤ byte ∧ byte < q + size.toNat := by
  have haddr : (UInt64.ofNat q).toNat = q := UInt64.toNat_ofNat_of_lt' hqlt
  obtain ⟨ws, hruns, hmem, hcons, _⟩ :=
    (fillsUp_memcpy (UInt64.ofNat q) ptr size t.machine.mem).spec
  rw [haddr] at hcons hmem
  rw [reallocCopy, reallocStores, if_pos ⟨hq, hptr⟩, if_pos ⟨hq, hptr⟩, itmMemcpyRtWt,
    WriteCall.stores, haddr, if_pos hig, if_pos hig, run_plainAccess, hruns.eval, hruns.writes, ok_bind]
  exact ⟨_, rfl, rfl, hmem, fun byte => hcons.covers_iff⟩

section Tracked

variable (hp : t.sei.p = p) (hlt : p < b.redundancy) (hint : (t.sei.cow p).maxSize < 2 ^ 31)
  (hfit : q + size.toNat ≤ 2 ^ 64) (hfuel : size.toNat < fuel) (hnot : t.ignoreAddr sp q = false)

include hp hlt hint hfit hfuel hnot

/-- A copy to a block that is not ignored stores at least one byte. -/
theorem reallocCopy_of_room (hroom : max 1 size.toNat ≤ (t.sei.cow p).room) :
    ∃ t2, t.reallocCopy b sp q ptr size fuel = .ok (true, t2) ∧
      t2.machine.mem = runWrites (t.reallocStores sp q ptr size fuel) t.machine.mem ∧
      (1 ≤ size.toNat → ptr.toNat + size.toNat ≤ 2 ^ 64 → t2.machine.mem =
        fill (copiedByte t.machine.mem q ptr.toNat) q (q + size.toNat) t.machine.mem) ∧
      ∀ byte, (∃ w ∈ t.reallocStores sp q ptr size fuel, w.Covers byte) ↔
        q ≤ byte ∧ byte < q + max 1 size.toNat := by
  have haddr : (UInt64.ofNat q).toNat = q := UInt64.toNat_ofNat_of_lt' hqlt
  have hlimit := Abuf.room_lt hint
  have hsize : size.toNat < 2 ^ 32 := by omega
  obtain ⟨ws, hruns, hcons, hlength⟩ := consecutive_memcpyRtWt_max (UInt64.ofNat q) ptr
    t.machine.mem hsize (by rw [haddr]; exact hfit) hfuel
  have hrun := run_seiAccess hp hlt hint (memcpyRtWt (UInt64.ofNat q) ptr size fuel)
  rw [hruns.writes, hruns.eval, if_pos (by omega)] at hrun
  obtain ⟨t2, hrun, hwrote⟩ := hrun
  rw [haddr] at hcons
  rw [reallocCopy, reallocStores, if_pos ⟨hq, hptr⟩, if_pos ⟨hq, hptr⟩, itmMemcpyRtWt,
    WriteCall.stores, haddr, hnot, if_neg (by decide), if_neg (by decide), hrun, ok_bind, hruns.writes]
  refine ⟨t2, rfl, hwrote.mem, fun hpos hsrc => ?_, fun byte => hcons.covers_iff⟩
  obtain ⟨vs, hruns', hmem, -, -⟩ := (fillsUp_memcpyRtWt (UInt64.ofNat q) ptr
    t.machine.mem hpos hsize (by rw [haddr]; exact hfit) hsrc hfuel.le).spec
  rw [haddr, ← hruns'.writes, hruns.writes] at hmem
  exact hwrote.mem.trans hmem

/-- A copy for which the log has no room stops the process, and one that is longer than the index
can count does not end. -/
theorem reallocCopy_of_full (hfull : ¬ max 1 size.toNat ≤ (t.sei.cow p).room) (t2 : Tmi) :
    t.reallocCopy b sp q ptr size fuel ≠ .ok (true, t2) := by
  have haddr : (UInt64.ofNat q).toNat = q := UInt64.toNat_ofNat_of_lt' hqlt
  have hrun := run_seiAccess hp hlt hint (memcpyRtWt (UInt64.ofNat q) ptr size fuel)
  rw [reallocCopy, if_pos ⟨hq, hptr⟩, itmMemcpyRtWt, haddr, hnot, if_neg (by decide)]
  rcases Nat.lt_or_ge size.toNat (2 ^ 32) with hsize | hlarge
  · obtain ⟨ws, hruns, -, hlength⟩ := consecutive_memcpyRtWt_max (UInt64.ofNat q) ptr
      t.machine.mem hsize (by rw [haddr]; exact hfit) hfuel
    rw [hruns.writes, if_neg (by omega)] at hrun
    rw [hrun]
    intro h
    cases h
  · split at hrun
    · obtain ⟨t', hrun, -⟩ := hrun
      rw [hrun, eval_memcpyRtWt_of_large _ _ hlarge]
      intro h
      cases h
    · rw [hrun]
      intro h
      cases h

end Tracked

end Copy

section Realloc

variable {ptr size : UInt64} {fuel n q : Nat} {t1 t2 : Tmi}
  (hmalloc : t.itmMalloc env b size.toNat = .ok (q, t1))

include hmalloc

/-- Without a block, old or new, nothing is copied. -/
theorem reallocCopies_of_none (hnone : q = 0 ∨ ptr = 0) :
    ReallocCopies env b sp t ptr size fuel n q t1 := by
  have hcond : ¬ (q ≠ 0 ∧ ptr ≠ 0) := by tauto
  have hcopy : t1.reallocCopy b sp q ptr size fuel = .ok (true, t1) := if_neg hcond
  have hstores : t1.reallocStores sp q ptr size fuel = [] := if_neg hcond
  refine ⟨t1, hcopy, zgttRealloc_of_copied hmalloc hcopy, ?_, ?_, ?_⟩
  · rw [hstores, runWrites_nil]
  · rw [hstores]
    intro byte
    exact iff_of_false (by simp) (by tauto)
  · exact fun hq hptr => absurd ⟨hq, hptr⟩ hcond

/-- Once the copy is known to get past its end, what counts is how far it reaches. -/
theorem reallocCopies_iff_of_covers {reach : Nat} (hq : q ≠ 0) (hptr : ptr ≠ 0)
    (hcopy : t1.reallocCopy b sp q ptr size fuel = .ok (true, t2))
    (hmem : t2.machine.mem = runWrites (t1.reallocStores sp q ptr size fuel) t1.machine.mem)
    (hcov : ∀ byte, (∃ w ∈ t1.reallocStores sp q ptr size fuel, w.Covers byte) ↔
      q ≤ byte ∧ byte < q + reach)
    (hbytes : reach = n → ∀ i < n, t2.machine.mem (q + i) = t.machine.mem (ptr.toNat + i)) :
    ReallocCopies env b sp t ptr size fuel n q t1 ↔ reach = n := by
  constructor
  · rintro ⟨_, _, _, _, hstored, _⟩
    refine (range_eq_iff (q := q)).mp fun byte => ?_
    rw [← hcov, hstored]
    tauto
  · intro hreach
    refine ⟨t2, hcopy, zgttRealloc_of_copied hmalloc hcopy, hmem, fun byte => ?_,
      fun _ _ => hbytes hreach⟩
    rw [hcov, hreach]
    tauto

/-- `_ZGTt7realloc` copies as many bytes as the new block has, and one if it has none. The old
block has `old` bytes, and the new one lies apart from it. -/
theorem zgttRealloc_copies_iff {old : Nat} (hp : t.sei.p = p) (hlt : p < b.redundancy)
    (hint : (t.sei.cow p).maxSize < 2 ^ 31) (hqlt : q < 2 ^ 64) (hfit : q + size.toNat ≤ 2 ^ 64)
    (hold : ptr.toNat + old ≤ 2 ^ 64)
    (hapart : q + size.toNat ≤ ptr.toNat ∨ ptr.toNat + old ≤ q) (hfuel : size.toNat < fuel) :
    ReallocCopies env b sp t ptr size fuel (min old size.toNat) q t1 ↔
      q = 0 ∨ ptr = 0 ∨ size.toNat ≤ old ∧ (t.ignore.allf ≠ 0 ∨ t.ignoreAddr sp q = true ∨
        1 ≤ size.toNat ∧ size.toNat ≤ (t.sei.cow p).room) := by
  by_cases hnone : q = 0 ∨ ptr = 0
  · exact iff_of_true (reallocCopies_of_none hmalloc hnone) (by tauto)
  rw [not_or] at hnone
  obtain ⟨hq, hptr⟩ := hnone
  have hspec := itmMalloc_spec hmalloc
  have hignored := hspec.ignored (by omega) sp
  have hcopied : ∀ m : Mem, size.toNat = min old size.toNat →
      m = fill (copiedByte t1.machine.mem q ptr.toNat) q (q + size.toNat) t1.machine.mem →
      ∀ i < min old size.toNat, m (q + i) = t.machine.mem (ptr.toNat + i) := by
    rintro m hsize rfl i hi
    rw [fill_copiedByte_of_apart (by omega) (by omega), hspec.mem]
  cases hig : t1.ignoreAddr sp q with
  | true =>
    obtain ⟨t2, hcopy, hmem, hfill, hcov⟩ :=
      reallocCopy_of_ignored (b := b) size fuel hq hptr hqlt hig
    rw [reallocCopies_iff_of_covers hmalloc hq hptr hcopy hmem hcov
      fun hreach => hcopied _ hreach hfill]
    have hig := hignored.mp hig
    constructor
    · intro hmin
      exact .inr (.inr ⟨by omega, by tauto⟩)
    · rintro (hq' | hptr' | ⟨hle, _⟩)
      · exact absurd hq' hq
      · exact absurd hptr' hptr
      · omega
  | false =>
    have hnot : ¬ (t.ignore.allf ≠ 0 ∨ t.ignoreAddr sp q = true) := by
      rw [← hignored, hig]
      decide
    have hright : (q = 0 ∨ ptr = 0 ∨ size.toNat ≤ old ∧ (t.ignore.allf ≠ 0 ∨
        t.ignoreAddr sp q = true ∨ 1 ≤ size.toNat ∧ size.toNat ≤ (t.sei.cow p).room)) ↔
        size.toNat ≤ old ∧ 1 ≤ size.toNat ∧ size.toNat ≤ (t.sei.cow p).room := by
      tauto
    have hphase := hspec.phase.trans hp
    rw [hright, ← hspec.cow]
    rw [← hspec.cow] at hint
    by_cases hroom : max 1 size.toNat ≤ (t1.sei.cow p).room
    · obtain ⟨t2, hcopy, hmem, hfill, hcov⟩ :=
        reallocCopy_of_room size fuel hq hptr hqlt hphase hlt hint hfit hfuel hig hroom
      rw [reallocCopies_iff_of_covers hmalloc hq hptr hcopy hmem hcov
        fun hreach => hcopied _ (by omega) (hfill (by omega) (by omega))]
      omega
    · refine iff_of_false ?_ (by omega)
      rintro ⟨t2, hcopy, _⟩
      exact reallocCopy_of_full size fuel hq hptr hqlt hphase hlt hint hfit hfuel hig hroom t2 hcopy

end Realloc

/-! ## The three calls -/

/-- In a phase, a block of calloc is zero exactly when the size does not overflow and the memory
the allocator hands out is zero already. The copy of realloc stays within the old block exactly
when this is not shorter than the new one and there is a byte to copy and room in the log for
all of them, or the new block is ignored. Freeing a null pointer has no effect exactly when an
ignored range starts there, and otherwise dooms the transaction. -/
theorem allocationCalls_iff (env : Env) (b : Build) (t : Tmi) (hp : t.sei.p = p)
    (hlt : p < b.redundancy) (hlevel : p < t.sei.tbin.redundancyLevel)
    (hint : (t.sei.cow p).maxSize < 2 ^ 31) :
    (∀ (nmemb size : UInt64) (r : Nat) (t' : Tmi), t.itmCalloc env b nmemb size = .ok (r, t') →
      (Zeroed nmemb.toNat size.toNat r t'.machine.mem ↔
        Zeroed nmemb.toNat size.toNat
          (t.sei.talloc.next env t.machine (nmemb.toNat * size.toNat % 2 ^ 64)) t.machine.mem)) ∧
    (∀ (sp : Nat) (ptr size : UInt64) (fuel old : Nat) (t1 : Tmi),
      t.itmMalloc env b size.toNat = .ok (t.nextBlock env size.toNat, t1) →
      t.nextBlock env size.toNat < 2 ^ 64 → t.nextBlock env size.toNat + size.toNat ≤ 2 ^ 64 →
      ptr.toNat + old ≤ 2 ^ 64 →
      t.nextBlock env size.toNat + size.toNat ≤ ptr.toNat ∨
        ptr.toNat + old ≤ t.nextBlock env size.toNat →
      size.toNat < fuel →
      (ReallocCopies env b sp t ptr size fuel (min old size.toNat) (t.nextBlock env size.toNat) t1 ↔
        t.nextBlock env size.toNat = 0 ∨ ptr = 0 ∨ size.toNat ≤ old ∧
          (t.ignore.allf ≠ 0 ∨ t.ignoreAddr sp (t.nextBlock env size.toNat) = true ∨
            1 ≤ size.toNat ∧ size.toNat ≤ (t.sei.cow p).room))) ∧
    ((∃ t', t.itmFree env b 0 = .ok t' ∧ t'.toSeiThread = t.toSeiThread ∧ t'.ignore = t.ignore) ↔
      t.ignore.starts 0 = true) ∧
    (t.ignore.starts 0 = false → ∀ t', t.itmFree env b 0 = .ok t' → Doomed env b t') :=
  ⟨fun _ _ _ _ hcalloc => itmCalloc_zeroed_iff hcalloc,
    fun _ _ _ _ _ _ hmalloc hqlt hfit hold hapart hfuel =>
      zgttRealloc_copies_iff hmalloc hp hlt hint hqlt hfit hold hapart hfuel,
    itmFree_null_iff hp hlevel⟩

/-- Zeroed memory, and a block that shrinks to its first eight bytes. -/
theorem allocationCalls_shrink :
    (∃ t', (firstPhase fun _ => 0).itmCalloc Env.plain (Build.twoWay true false) 2 4 =
        .ok (4096, t') ∧ Zeroed 2 4 4096 t'.machine.mem) ∧
      ∃ t1, (firstPhase fun i => UInt8.ofNat i).itmMalloc Env.plain (Build.twoWay true false) 8 =
          .ok (4096, t1) ∧
        ReallocCopies Env.plain (Build.twoWay true false) 0 (firstPhase fun i => UInt8.ofNat i) 64 8 9
          (min 16 8) 4096 t1 := by
  constructor
  · obtain ⟨hcalloc, -⟩ := allocationCalls_iff Env.plain (Build.twoWay true false)
      (firstPhase fun _ => 0) (p := 0) rfl (by decide) (by decide) (by decide)
    obtain ⟨t', hrun⟩ : ∃ t', (firstPhase fun _ => 0).itmCalloc Env.plain (Build.twoWay true false)
        2 4 = .ok (4096, t') := ⟨_, rfl⟩
    exact ⟨t', hrun, (hcalloc 2 4 4096 t' hrun).mpr (.inr ⟨by decide, fun _ _ => rfl⟩)⟩
  · obtain ⟨-, hrealloc, -⟩ := allocationCalls_iff Env.plain (Build.twoWay true false)
      (firstPhase fun i => UInt8.ofNat i) (p := 0) rfl (by decide) (by decide) (by decide)
    obtain ⟨t1, hrun⟩ : ∃ t1, (firstPhase fun i => UInt8.ofNat i).itmMalloc Env.plain
        (Build.twoWay true false) 8 = .ok (4096, t1) := ⟨_, rfl⟩
    exact ⟨t1, hrun, (hrealloc 0 64 8 9 16 t1 hrun (by decide) (by decide) (by decide)
      (.inr (by decide)) (by decide)).mpr
      (.inr (.inr ⟨by decide, .inr (.inr ⟨by decide, by rw [room_firstPhase]; decide⟩)⟩))⟩

/-- A block of calloc with what was there before, one for a product that overflows, a block that
grows and receives what lies behind the old one, and a null pointer freed in both phases. -/
theorem allocationCalls_differ :
    (∃ t', (firstPhase fun _ => 1).itmCalloc Env.plain (Build.twoWay true false) 1 8 =
        .ok (4096, t') ∧ t'.machine.mem 4096 = 1) ∧
      (∃ t', (firstPhase fun _ => 0).itmCalloc Env.plain (Build.twoWay true false)
        9223372036854775808 2 = .ok (4096, t')) ∧
      (∃ t', (firstPhase fun i => UInt8.ofNat i).zgttRealloc Env.plain (Build.twoWay true false) 0
        64 9 10 = .ok (some 4096, t') ∧ t'.machine.mem (4096 + 8) = UInt8.ofNat (64 + 8)) ∧
      ∃ t1 t2 t3, (firstPhase fun _ => 0).itmFree Env.plain (Build.twoWay true false) 0 = .ok t1 ∧
        t1.seiCommit Env.plain (Build.twoWay true false) = .ok (.reexecute, t2) ∧
        t2.itmFree Env.plain (Build.twoWay true false) 0 = .ok t3 ∧
        t3.seiCommit Env.plain (Build.twoWay true false) = .error (.fail "null pointer in phase" []) :=
  ⟨⟨_, rfl, rfl⟩, ⟨_, rfl⟩, ⟨_, rfl, by decide⟩, _, _, _, rfl, rfl, rfl, rfl⟩

end Tmi

end LibSei
