-- SUMMARY: Conservation of blocks: what a transaction allocates and frees, after a commit and after a rollback.
import LibSei.ModeCow.Allocations
import LibSei.Properties.Bookkeeping

/-!
# Conservation of blocks

A handler that allocates and frees is run once per phase, but its allocations are made once
and its frees are executed once, at commit; a rollback takes the allocations back and drops
the frees. The results here follow every block through both ends of a transaction.
-/

namespace LibSei

open Memory Control

/-! ## Handlers that allocate -/

/-- A program of logged reads and writes, allocations and frees. -/
inductive AllocHandler where
  | done
  | read (t : UIntTy) (addr : Nat) (next : Nat → AllocHandler)
  | write (t : UIntTy) (addr value : Nat) (next : AllocHandler)
  | malloc (size : Nat) (next : Nat → AllocHandler)
  | free (ptr : Nat) (next : AllocHandler)

/-- What a run of such a handler does, step by step. -/
inductive AllocAccess where
  | read (t : UIntTy) (addr value : Nat)
  | write (t : UIntTy) (addr value : Nat)
  | malloc (size addr : Nat)
  | free (ptr : Nat)
  deriving DecidableEq, Repr

namespace AllocAccess

/-- The operation an access is to the library. -/
def toCall? : AllocAccess → Option Call
  | .read _ _ _ => none
  | .write t addr value => some (.write t addr value)
  | .malloc size _ => some (.malloc size)
  | .free ptr => some (.free ptr)

/-- The block an access is given. -/
def malloced? : AllocAccess → Option Nat
  | .malloc _ addr => some addr
  | _ => none

end AllocAccess

namespace AllocHandler

/-- One run of the handler on plain memory, when the allocator has been called `k` times. The
frees take effect after the run. -/
def exec (env : Env) : AllocHandler → Mem → Nat → List AllocAccess
  | .done, _, _ => []
  | .read t addr next, mem, k =>
      let v := load mem addr t.sizeof
      .read t addr v :: (next v).exec env mem k
  | .write t addr value next, mem, k =>
      .write t addr value :: next.exec env (store mem addr t.sizeof value) k
  | .malloc size next, mem, k =>
      let addr := env.malloc k size
      .malloc size addr :: (next addr).exec env mem (k + 1)
  | .free ptr next, mem, k => .free ptr :: next.exec env mem k

/-- The same handler run inside the current phase. -/
def run (env : Env) (b : Build) : AllocHandler → World → Exec (List AllocAccess × World)
  | .done, w => return ([], w)
  | .read t addr next, w => do
      let v := w.read t addr
      let (as, w) ← (next v).run env b w
      return (.read t addr v :: as, w)
  | .write t addr value next, w => do
      let w ← w.write b t addr value
      let (as, w) ← next.run env b w
      return (.write t addr value :: as, w)
  | .malloc size next, w => do
      let (addr, w) ← w.malloc env b size
      let (as, w) ← (next addr).run env b w
      return (.malloc size addr :: as, w)
  | .free ptr next, w => do
      let w ← w.free b ptr
      let (as, w) ← next.run env b w
      return (.free ptr :: as, w)

/-- The accesses the handler makes in a transaction that starts in `w0`. -/
def accesses (h : AllocHandler) (env : Env) (w0 : World) : List AllocAccess :=
  h.exec env w0.mem w0.machine.nalloc

/-- The same as operations of the library. -/
def calls (h : AllocHandler) (env : Env) (w0 : World) : List Call :=
  (h.accesses env w0).filterMap AllocAccess.toCall?

/-- The blocks it is given. -/
def blocks (h : AllocHandler) (env : Env) (w0 : World) : List Nat :=
  (h.accesses env w0).filterMap AllocAccess.malloced?

/-- The pointers it frees. -/
def frees (h : AllocHandler) (env : Env) (w0 : World) : List Nat :=
  (h.calls env w0).filterMap Call.freed?

section Runs

variable {env : Env} {b : Build} {w w0 : World} {p k : Nat}

/-- The blocks of a run are those the allocator returns to its requests. -/
theorem filterMap_malloced (h : AllocHandler) (mem : Mem) (k : Nat) :
    (h.exec env mem k).filterMap AllocAccess.malloced? =
      (env.blocks k (requests ((h.exec env mem k).filterMap AllocAccess.toCall?))).map
        TallocAllocation.addr := by
  induction h generalizing mem k with
  | done => rfl
  | read t addr next ih => exact ih _ mem k
  | write t addr value next ih => exact ih _ k
  | malloc size next ih =>
    show env.malloc k size :: _ = env.malloc k size :: _
    rw [ih]
    rfl
  | free ptr next ih => exact ih mem k

/-- In a phase whose requests are served the handler runs to its end and makes the accesses
of a run on plain memory. -/
theorem run_eq (h : AllocHandler) (hp : w.sei.p = p) (htalloc : w.sei.talloc.p = p)
    (hlt : p < b.redundancy)
    (hserves : w.Serves k
      (env.blocks k (requests ((h.exec env w.mem k).filterMap AllocAccess.toCall?))))
    (hroom : w.sei.tbin.nitems p + (((h.exec env w.mem k).filterMap AllocAccess.toCall?).filterMap
      Call.freed?).length ≤ w.sei.tbin.maxItems) :
    ∃ w', h.run env b w = .ok (h.exec env w.mem k, w') ∧
      World.calls env b ((h.exec env w.mem k).filterMap AllocAccess.toCall?) w = .ok w' := by
  induction h generalizing w k with
  | done => exact ⟨w, rfl, rfl⟩
  | read t addr next ih =>
    obtain ⟨w', hrun, hcalls⟩ := ih (load w.mem addr t.sizeof) hp htalloc hserves hroom
    refine ⟨w', ?_, hcalls⟩
    rw [run, World.read, hrun, ok_bind]
    rfl
  | write t addr value next ih =>
    have hwrite := World.write_eq hp hlt t addr value
    have hcall : w.call env b (.write t addr value) = .ok _ := hwrite
    obtain ⟨w', hrun, hcalls⟩ := ih (w := w.logWrite p t addr value) hp htalloc
      (hserves.same rfl (World.call_frame hcall)) hroom
    refine ⟨w', ?_, ?_⟩
    · rw [run, hwrite, ok_bind, hrun, ok_bind]
      rfl
    · show (w.call env b (.write t addr value) >>= _) = _
      rw [hcall, ok_bind]
      exact hcalls
  | malloc size next ih =>
    obtain ⟨w1, hmalloc, hmem, hserves'⟩ := hserves.malloc (b := b) (by omega)
    have hcall : w.call env b (.malloc size) = .ok w1 := by
      rw [World.call, hmalloc, ok_bind]
      rfl
    have hframe := World.call_opFrame hcall
    rw [← hmem] at hserves' hroom
    rw [← (World.call_frame hcall).tbin rfl] at hroom
    obtain ⟨w', hrun, hcalls⟩ := ih (env.malloc k size) (hframe.p.trans hp)
      (hframe.talloc_p.trans htalloc) hserves' hroom
    rw [hmem] at hrun hcalls
    refine ⟨w', ?_, ?_⟩
    · rw [run, hmalloc, ok_bind]
      simp only [hrun, ok_bind]
      rfl
    · show (w.call env b (.malloc size) >>= _) = _
      rw [hcall, ok_bind]
      exact hcalls
  | free ptr next ih =>
    have hcount : w.sei.tbin.nitems p + ((((next.exec env w.mem k).filterMap
        AllocAccess.toCall?).filterMap Call.freed?).length + 1) ≤ w.sei.tbin.maxItems := hroom
    obtain ⟨tbin, hadd⟩ := w.sei.tbin.exists_add ptr hlt (by omega)
    obtain ⟨hmax, hnitems, _⟩ := Tbin.add_eq_ok hadd
    have hfree : w.free b ptr = .ok { w with sei := { w.sei with tbin := tbin } } := by
      rw [World.free, hp, hadd, ok_bind]
      rfl
    have hcall : w.call env b (.free ptr) = .ok _ := hfree
    have hroom' : tbin.nitems p + (((next.exec env w.mem k).filterMap
        AllocAccess.toCall?).filterMap Call.freed?).length ≤ tbin.maxItems := by
      rw [hmax, hnitems p, if_pos rfl]
      omega
    obtain ⟨w', hrun, hcalls⟩ := ih (w := { w with sei := { w.sei with tbin := tbin } }) hp htalloc
      (hserves.same rfl (World.call_frame hcall)) hroom'
    refine ⟨w', ?_, ?_⟩
    · rw [run, hfree, ok_bind, hrun, ok_bind]
      rfl
    · show (w.call env b (.free ptr) >>= _) = _
      rw [hcall, ok_bind]
      exact hcalls

end Runs

end AllocHandler

/-! ## Blocks of a transaction -/

/-- Blocks new to a process with the blocks `live`: not null and pairwise different. -/
structure NewBlocks (live : Set Nat) (blocks : List Nat) : Prop where
  nonnull : 0 ∉ blocks
  nodup : blocks.Nodup
  fresh : ∀ a ∈ blocks, a ∉ live

/-- The handler stays within the capacities of the allocator's record and of the trash bin, is
given new blocks and frees no block twice and none that is null. -/
structure AllocHandler.Fits (env : Env) (live : Set Nat) (w0 : World) (h : AllocHandler) : Prop where
  record : (h.blocks env w0).length < tallocMaxAllocs
  bin : (h.frees env w0).length ≤ w0.sei.tbin.maxItems
  new : NewBlocks live (h.blocks env w0)
  nonnull : 0 ∉ h.frees env w0
  once : (h.frees env w0).Nodup

namespace World

/-- What becomes of the blocks of a transaction that starts in `w0` and runs a handler. -/
structure Conserves (env : Env) (b : Build) (live : Set Nat) (w0 : World) (h : AllocHandler) :
    Prop where
  /-- Every phase is reached and makes the same accesses, so it is given the same blocks. -/
  same : ∀ k < w0.sei.redundancyLevel, ∃ w w',
    phaseStart env b (fun _ => calls env b (h.calls env w0)) w0 k = .ok w ∧
      h.run env b w = .ok (h.accesses env w0, w') ∧ calls env b (h.calls env w0) w = .ok w'
  /-- A commit has called the allocator once per block and frees what the handler freed. -/
  committed : ∀ w w', finalPhase env b (fun _ => h.calls env w0) w0 = .ok w →
    Committed env b w w' →
    w'.machine.nalloc = w0.machine.nalloc + (h.blocks env w0).length ∧
      ∀ ptr, (released w0 w').count ptr = if ptr ∈ h.frees env w0 then 1 else 0
  /-- A rollback frees what the attempt was given, and none of the blocks from before. This is so
  wherever the handler is interrupted, and also when the phases do something else. -/
  rolledBack : ∀ phases k cs w w1, k < w0.sei.redundancyLevel →
    inPhase env b phases w0 k cs = .ok w → NewBlocks live (given env w0 (upTo phases k cs 0)) →
    RecoversFrom env b w w1 →
    ∃ w', w1.recover env b = .ok w' ∧
      w'.machine.nalloc = w0.machine.nalloc + (given env w0 (upTo phases k cs 0)).length ∧
      (∀ ptr, (released w0 w').count ptr =
        if ptr ∈ given env w0 (upTo phases k cs 0) then 1 else 0) ∧
      ∀ ptr ∈ live, ptr ∉ released w0 w'

section Conservation

variable {env : Env} {b : Build} {live : Set Nat} {w w' w0 w1 : World} {h : AllocHandler}
  {n k r : Nat} {cs : List Call} {css phases : Nat → List Call}

theorem blocks_eq_given (h : AllocHandler) : h.blocks env w0 = given env w0 (h.calls env w0) :=
  h.filterMap_malloced w0.mem w0.machine.nalloc

theorem length_given : (given env w0 cs).length = (requests cs).length := by
  rw [given, List.length_map, Env.length_blocks]

theorem count_of_nodup {l : List Nat} (hl : l.Nodup) (ptr : Nat) :
    l.count ptr = if ptr ∈ l then 1 else 0 := by
  split
  · next hmem => exact List.count_eq_one_of_mem hl hmem
  · next hmem => exact List.count_eq_zero_of_not_mem hmem

/-! ## The phases -/

/-- In every phase the requests of the handler are served with the same blocks. -/
theorem Startable.serves (hready : w0.Startable b n) (hfits : h.Fits env live w0) (hk : k < n)
    (hstart : World.phaseStart env b (fun _ => World.calls env b (h.calls env w0)) w0 k = .ok w) :
    w.Serves w0.machine.nalloc (env.blocks w0.machine.nalloc (requests (h.calls env w0))) := by
  have hrun : World.inPhase env b (fun _ => h.calls env w0) w0 k [] = .ok w := by
    rw [World.inPhase, hstart, ok_bind]
    rfl
  have hallocates := hready.allocates hk hrun
  have htalloc := (hready.inPhase hk hrun).talloc_p
  have hnew := hfits.new.nonnull
  have hrecord := hfits.record
  rw [blocks_eq_given, length_given] at hrecord
  rw [blocks_eq_given, given] at hnew
  have hsize := hallocates.size k hk
  rw [upTo_self] at hsize
  constructor
  · intro hzero
    obtain rfl : k = 0 := htalloc.symm.trans hzero
    refine ⟨?_, fun a ha hnull => hnew (List.mem_map.mpr ⟨a, ha, hnull⟩), ?_⟩
    · rw [hallocates.nalloc, upTo_self]
      rfl
    · rw [hsize, Env.length_blocks]
      show 0 + _ < _
      omega
  · intro hne
    rw [htalloc] at hne
    rw [htalloc, hsize, Env.length_blocks]
    refine ⟨?_, fun i a hi => ?_⟩
    · show 0 + _ ≤ _
      omega
    · rw [show (requests []).length + i = i from Nat.zero_add i]
      refine hallocates.allocations i a ?_
      rw [upTo_of_lt (by omega)]
      exact hi

theorem Startable.run_accesses (hready : w0.Startable b n) (hclean : w0.sei.tbin.Clean)
    (hfits : h.Fits env live w0) (hk : k < n)
    (hstart : World.phaseStart env b (fun _ => World.calls env b (h.calls env w0)) w0 k = .ok w) :
    ∃ w', h.run env b w = .ok (h.accesses env w0, w') ∧
      World.calls env b (h.calls env w0) w = .ok w' := by
  have hserves := hready.serves hfits hk hstart
  have hrun : World.inPhase env b (fun _ => h.calls env w0) w0 k [] = .ok w := by
    rw [World.inPhase, hstart, ok_bind]
    rfl
  have hin := hready.inPhase hk hrun
  have hmem : w.mem = w0.mem := hin.mem
  have htrashed := hready.trashed (hclean.nitems k) hk hrun
  rw [upTo_self] at htrashed
  have hroom : w.sei.tbin.nitems k + (h.frees env w0).length ≤ w.sei.tbin.maxItems := by
    rw [htrashed.nitems, hready.tbin_maxItems hk hrun]
    show 0 + _ ≤ _
    rw [Nat.zero_add]
    exact hfits.bin
  have heq := h.run_eq (k := w0.machine.nalloc) hin.p hin.talloc_p (Nat.lt_of_lt_of_le hk hready.le)
    (by rw [hmem]; exact hserves) (by rw [hmem]; exact hroom)
  rw [hmem] at heq
  exact heq

theorem Startable.exists_phase (hready : w0.Startable b n) (hclean : w0.sei.tbin.Clean)
    (hfits : h.Fits env live w0) (hk : k < n) :
    ∃ w, World.phaseStart env b (fun _ => World.calls env b (h.calls env w0)) w0 k = .ok w := by
  induction k with
  | zero => exact ⟨_, rfl⟩
  | succ k ih =>
    obtain ⟨w1, hstart⟩ := ih (by omega)
    obtain ⟨w2, _, hcalls⟩ := hready.run_accesses hclean hfits (by omega) hstart
    have hrun : World.inPhase env b (fun _ => h.calls env w0) w0 k (h.calls env w0) = .ok w2 := by
      rw [World.inPhase, hstart, ok_bind, hcalls]
    obtain ⟨w3, hswitch⟩ := (hready.inPhase (by omega) hrun).exists_switch env hk hready.le
      (sized_writesOf _)
    exact ⟨w3, by rw [World.phaseStart, hstart, ok_bind, hcalls, ok_bind, hswitch]⟩

/-! ## Commit -/

/-- A commit of phases that freed the same pointers frees each of them, and calls no
allocator. -/
theorem Committed.released (hcommit : Committed env b w w') {ptrs : List Nat}
    (htrace : w.machine.trace = w0.machine.trace) (hlevel : 0 < w.sei.tbin.redundancyLevel)
    (htrashed : ∀ p < w.sei.tbin.redundancyLevel, w.sei.tbin.Trashed p ptrs)
    (hnonnull : 0 ∉ ptrs) :
    World.released w0 w' = ptrs ∧ w'.machine.nalloc = w.machine.nalloc := by
  obtain ⟨m, hcalls, hfrees⟩ := hcommit.effects
  have hagree := Tbin.agree_of_trashed hlevel htrashed fun ptr hptr hnull => hnonnull (hnull ▸ hptr)
  have hzero := htrashed 0 hlevel
  rw [Tbin.flush_of_agree hagree, Except.ok.injEq, Prod.mk.injEq] at hfrees
  obtain ⟨es, rfl, hes⟩ := Wts.flush_effects hcalls
  obtain ⟨htrace', hnalloc⟩ := @Tbin.freeItems_effects env _
    { w.machine with trace := w.machine.trace ++ es } _ hzero _ (le_of_eq hzero.nitems)
  rw [hfrees.2, hzero.nitems, List.take_length] at htrace'
  rw [hfrees.2] at hnalloc
  refine ⟨?_, hnalloc⟩
  have hnone : es.filterMap Effect.freed? = [] := by
    refine List.filterMap_eq_nil_iff.mpr fun e he => ?_
    obtain ⟨func, args, rfl⟩ := hes e he
    rfl
  rw [World.released, htrace', htrace, List.append_assoc, List.drop_left, List.filterMap_append, hnone,
    List.nil_append, List.filterMap_map]
  exact List.filterMap_some

theorem Startable.released_committed (hready : w0.Startable b n) (hclean : w0.sei.tbin.Clean)
    (hnonnull : 0 ∉ h.frees env w0)
    (hrun : World.finalPhase env b (fun _ => h.calls env w0) w0 = .ok w)
    (hcommit : Committed env b w w') :
    released w0 w' = h.frees env w0 ∧
      w'.machine.nalloc = w0.machine.nalloc + (h.blocks env w0).length := by
  have hn := hready.two_le
  rw [World.finalPhase, hready.level] at hrun
  have hlevel := (hready.inPhase (by omega) hrun).tbin_level
  have hsame : ∀ p < n, upTo (fun _ => h.calls env w0) (n - 1) (h.calls env w0) p = h.calls env w0 := by
    intro p hp
    rcases Nat.lt_or_ge p (n - 1) with hlt | hge
    · exact upTo_of_lt hlt
    · obtain rfl : p = n - 1 := by omega
      exact upTo_self
  have hallocates := hready.allocates (by omega) hrun
  have htrashed : ∀ p < w.sei.tbin.redundancyLevel, w.sei.tbin.Trashed p (h.frees env w0) := by
    intro p hp
    rw [hlevel] at hp
    have htrashed := hready.trashed (hclean.nitems p) (by omega) hrun
    rwa [hsame p hp] at htrashed
  obtain ⟨hreleased, hnalloc⟩ := hcommit.released hallocates.trace (by omega) htrashed hnonnull
  refine ⟨hreleased, ?_⟩
  rw [hnalloc, hallocates.nalloc, hsame 0 (by omega), blocks_eq_given, length_given]

/-! ## Rollback -/

/-- Recovery frees the blocks given to phase 0 and nothing else. -/
theorem Allocates.released_recover (hallocates : Allocates env n w0 css w) (hn : 0 < n)
    (hnonnull : 0 ∉ given env w0 (css 0)) (hfrom : RecoversFrom env b w w1)
    (hrecover : w1.recover env b = .ok w') :
    released w0 w' = given env w0 (css 0) ∧ w'.machine.nalloc = w.machine.nalloc := by
  have hsame : w1.sei.talloc = w.sei.talloc ∧ w1.machine = w.machine := by
    rcases hfrom with rfl | htry
    · exact ⟨rfl, rfl⟩
    · obtain ⟨_, rfl, _⟩ := tryCommit_spec htry
      exact ⟨rfl, rfl⟩
  simp only [recover, rollback, bind_eq_ok, pure_eq_ok, Except.ok.injEq] at hrecover
  obtain ⟨⟨_, mem⟩, _, rfl⟩ := hrecover
  have haddr := hallocates.map_addr hn
  have hblocks : ∀ j, 0 ≤ j → j < 0 + w.sei.talloc.size 0 →
      (w.sei.talloc.allocations j).addr ≠ 0 := by
    intro j _ hj hzero
    rw [← haddr] at hnonnull
    exact hnonnull (List.mem_map.mpr ⟨j, List.mem_range'_1.mpr ⟨by omega, hj⟩, hzero⟩)
  obtain ⟨htrace, hnalloc⟩ := @Talloc.freeAllocations_effects env { w.machine with mem := mem } _ _ _
    hblocks
  refine ⟨released_of_trace ?_, ?_⟩
  · show (Talloc.freeAllocations env (w1.sei.talloc.size 0) 0 w1.sei.talloc.allocations
      { w1.machine with mem := mem }).2.trace = _
    rw [hsame.1, hsame.2, htrace, ← haddr, List.map_map, hallocates.trace]
    rfl
  · show (Talloc.freeAllocations env (w1.sei.talloc.size 0) 0 w1.sei.talloc.allocations
      { w1.machine with mem := mem }).2.nalloc = _
    rw [hsame.1, hsame.2, hnalloc]

theorem Startable.exists_recover (hready : w0.Startable b n) (hk : k < n)
    (hrun : World.inPhase env b phases w0 k cs = .ok w) (hfrom : RecoversFrom env b w w1) :
    ∃ w', w1.recover env b = .ok w' := by
  have hin := hready.inPhase hk hrun
  rcases Nat.eq_zero_or_pos k with rfl | hpos
  · obtain ⟨w', hrecover, _⟩ := hfrom.recover_mem hin.current (sized_writesOf cs).olds
    exact ⟨w', hrecover⟩
  · obtain ⟨w', hrecover, _⟩ := hfrom.recover_mem (hin.past 0 hpos) (sized_writesOf _)
    exact ⟨w', hrecover⟩

/-- Blocks are conserved: a handler is given the same blocks in every phase, a commit frees
what it freed, and a rollback frees what it was given. -/
theorem conserves_blocks (hbetween : Between env b w) (hattempts : Attempts env b r w w0)
    (hfits : h.Fits env live w0) : Conserves env b live w0 h := by
  obtain ⟨⟨n, hidle⟩, hclean⟩ := hbetween.idle_clean
  obtain ⟨hready, hclean⟩ := hattempts.clean hidle hclean
  have hn := hready.two_le
  constructor
  · intro k hk
    rw [hready.level] at hk
    obtain ⟨w1, hstart⟩ := hready.exists_phase hclean.tbin hfits hk
    obtain ⟨w2, hrun, hcalls⟩ := hready.run_accesses hclean.tbin hfits hk hstart
    exact ⟨w1, w2, hstart, hrun, hcalls⟩
  · intro w1 w' hrun hcommit
    obtain ⟨hreleased, hnalloc⟩ := hready.released_committed hclean.tbin hfits.nonnull hrun hcommit
    exact ⟨hnalloc, fun ptr => by rw [hreleased, count_of_nodup hfits.once]⟩
  · intro phases k cs w1 w2 hk hrun hnew hfrom
    rw [hready.level] at hk
    obtain ⟨w', hrecover⟩ := hready.exists_recover hk hrun hfrom
    have hallocates := hready.allocates hk hrun
    obtain ⟨hreleased, hnalloc⟩ := hallocates.released_recover (by omega) hnew.nonnull hfrom hrecover
    refine ⟨w', hrecover, ?_, fun ptr => ?_, fun ptr hlive => ?_⟩
    · rw [hnalloc, hallocates.nalloc, length_given]
    · rw [hreleased, count_of_nodup hnew.nodup]
    · rw [hreleased]
      exact fun hgiven => hnew.fresh ptr hgiven hlive

/-- Allocates two blocks, frees the first of them and a block from before. -/
def allocateAndFree : AllocHandler :=
  .malloc 8 fun first => .malloc 16 fun _ => .free first (.free 64 .done)

theorem fits_allocateAndFree (b : Build) :
    allocateAndFree.Fits Env.plain {64} (World.init b fun _ => 0) := by
  have hblocks : allocateAndFree.blocks Env.plain (World.init b fun _ => 0) = [4096, 8192] := rfl
  have hfrees : allocateAndFree.frees Env.plain (World.init b fun _ => 0) = [4096, 64] := rfl
  have hroom : (World.init b fun _ => 0).sei.tbin.maxItems = 10000 := rfl
  refine ⟨?_, ?_, ⟨?_, ?_, ?_⟩, ?_, ?_⟩
  all_goals simp [hblocks, hfrees, hroom, tallocMaxAllocs]

/-- In the first transaction of a process. -/
theorem conserves_allocateAndFree :
    Conserves Env.plain (Build.threeWay false true) {64}
      (World.init (Build.threeWay false true) fun _ => 0) allocateAndFree :=
  conserves_blocks (.init fun _ => 0) (.none _) (fits_allocateAndFree _)

end Conservation

end World

end LibSei
