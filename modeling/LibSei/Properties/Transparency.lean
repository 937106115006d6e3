-- SUMMARY: Transparency: a process whose handlers run as transactions, interrupted and retried or not, does what the handlers do without the library.
import LibSei.Memory.Locations
import LibSei.Properties.Conservation
import LibSei.Properties.ControlFlow
import LibSei.Properties.Detection
import LibSei.Properties.Precheck

/-!
# Transparency

A hardened process alternates between its handlers, each run as a transaction, and other
work. Without the library it would run each handler once. The results here follow a whole
run of the process: what it leaves in memory, asks of the allocator and frees is what the
plain process does, and no transaction of a well-behaved handler is rejected, whatever
happened before it.
-/

namespace LibSei

open Memory Control

/-! ## The plain process -/

namespace AllocHandler

/-- One run in a process without the library. The pointers to free are returned, in order. -/
def plainRun (env : Env) : AllocHandler → Machine → List Nat × Machine
  | .done, m => ([], m)
  | .read t addr next, m => (next (load m.mem addr t.sizeof)).plainRun env m
  | .write t addr value next, m =>
      next.plainRun env { m with mem := store m.mem addr t.sizeof value }
  | .malloc size next, m =>
      let (addr, m) := m.malloc env size
      (next addr).plainRun env m
  | .free ptr next, m =>
      let (ptrs, m) := next.plainRun env m
      (ptr :: ptrs, m)

/-- The frees of a handler, made in order. -/
def freeAll (env : Env) (ptrs : List Nat) (m : Machine) : Machine :=
  ptrs.foldl (fun m ptr => m.free env ptr) m

/-- What the handler does to a process without the library that frees when the handler is
done. -/
def outcome (env : Env) (h : AllocHandler) (m : Machine) : Machine :=
  let (ptrs, m) := h.plainRun env m
  freeAll env ptrs m

/-- The operations of a run. -/
def operations (env : Env) (h : AllocHandler) (m : Machine) : List Call :=
  (h.exec env m.mem m.nalloc).filterMap AllocAccess.toCall?

/-- A plain run is the run that the accesses describe. -/
theorem plainRun_eq {env : Env} (h : AllocHandler) (m : Machine) :
    h.plainRun env m = ((h.operations env m).filterMap Call.freed?,
      { m with
        mem := runWrites (writesOf (h.operations env m)) m.mem
        nalloc := m.nalloc + (requests (h.operations env m)).length }) := by
  induction h generalizing m with
  | done => rfl
  | read t addr next ih => exact ih _ m
  | write t addr value next ih =>
    rw [plainRun, ih]
    refine Prod.ext rfl (Machine.ext ?_ rfl rfl)
    show runWrites _ (store m.mem addr t.sizeof value) = runWrites _ (Write.apply _ m.mem)
    rw [apply_toWrite rfl]
    rfl
  | malloc size next ih =>
    show (next _).plainRun env _ = _
    rw [ih]
    refine Prod.ext rfl (Machine.ext rfl ?_ rfl)
    show m.nalloc + 1 + _ = m.nalloc + (_ + 1)
    rw [Nat.add_right_comm, Nat.add_assoc]
    rfl
  | free ptr next ih =>
    rw [plainRun, ih]
    rfl

end AllocHandler

/-- A step of a process: a handler, or work outside of handlers. -/
inductive PlainStep where
  | handler (h : AllocHandler)
  | work (f : Machine → Machine)

/-- A step without the library. -/
def PlainStep.outcome (env : Env) (m : Machine) : PlainStep → Machine
  | .handler h => h.outcome env m
  | .work f => f m

/-! ## The comparison of equal phases -/

section Comparison

variable {b : Build} {w0 w : World} {n : Nat}

/-- Writes to locations of one width that repeat few of them pass both comparisons: what memory
does not show is superseded. -/
theorem accepted_of_oneWidth {ws : List Write} (mem : Mem) (hwidth : OneWidth ws)
    (hrepeats : ws.length ≤ (shapes ws).dedup.length + abufMaxConflicts) :
    mismatches (runWrites ws mem) ws ≤ abufMaxConflicts ∧ Excused Superseded (runWrites ws mem) ws := by
  have hlater : ∀ i (hi : i < ws.length), Mismatch (runWrites ws mem) ws[i] →
      ∃ (j : Nat) (hj : j < ws.length), i < j ∧ ws[j].shape = ws[i].shape :=
    fun i hi hmis => hwidth.exists_later hi hmis
  constructor
  · have hrepeated : ∀ i (hi : i < ws.length), decide (Mismatch (runWrites ws mem) ws[i]) = true →
        ws[i].shape ∈ shapes (ws.drop (i + 1)) := by
      intro i hi hmis
      obtain ⟨j, hj, hij, hshape⟩ := hlater i hi (of_decide_eq_true hmis)
      refine List.mem_map.mpr ⟨ws[j], List.mem_iff_getElem.mpr ⟨j - (i + 1), ?_, ?_⟩, hshape⟩
      · rw [List.length_drop]
        omega
      · simp only [List.getElem_drop, show i + 1 + (j - (i + 1)) = j by omega]
    have hcount := countP_add_dedup_le (P := fun w => decide (Mismatch (runWrites ws mem) w)) hrepeated
    rw [mismatches]
    omega
  · intro i hi hmis
    obtain ⟨j, hj, hij, hshape⟩ := hlater i hi hmis
    exact ⟨j, hi, hj, hij, congrArg Prod.fst hshape⟩

theorem duplicated_of_superseded {mem : Mem} {ws : List Write} (hexcused : Excused Superseded mem ws) :
    Excused Duplicated mem ws := by
  intro i hi hmis
  obtain ⟨j, hi, hj, hij, haddr⟩ := hexcused i hi hmis
  exact ⟨j, hi, hj, by omega, haddr⟩

theorem FinalLogs.exists_compare {hist : Nat → List Write} (hlogs : FinalLogs w0 n hist w)
    (hn : 2 ≤ n) (hshape : SameLocations n hist) (hbuild : b.ndebug = true ∨ n = b.redundancy)
    (hfew : mismatches w.mem (hist 0) ≤ abufMaxConflicts)
    (hexcused : Excused Superseded w.mem (hist 0)) :
    ∃ cow, World.compare b n w.sei.cow w.mem = .ok cow := by
  unfold World.compare
  split
  · next htwo =>
    obtain ⟨r, hrun⟩ := (hlogs.cmpHeap_iff_of_shapes (b := b) htwo (hshape 1 (by decide) (by omega))).mpr
      ⟨hbuild.imp_right fun h => by omega, hfew, hexcused⟩
    rw [hrun, ok_bind]
    exact ⟨_, rfl⟩
  · exact (hlogs.cmpHeapNway_iff_of_sameLocations (by omega) hshape).mpr
      ⟨hbuild, hfew, duplicated_of_superseded hexcused⟩

/-- A comparison that is not stopped answers. -/
theorem exists_answer {α : Type} {x : Exec (Bool × α)} (hx : ∀ e, x ≠ .error e) :
    ∃ r a, x = .ok (r, a) ∧ (r = true ↔ Prod.fst <$> x = .ok true) := by
  cases x with
  | error e => exact absurd rfl (hx e)
  | ok r =>
    obtain ⟨v, a⟩ := r
    refine ⟨v, a, rfl, ?_⟩
    show v = true ↔ (.ok v : Exec Bool) = .ok true
    rw [Except.ok.injEq]

/-- A collection whose visits all pass is not stopped. -/
theorem collect_ne_stop {V : Nat → Prop} {visit : Nat → Checks Bool} {pick : Nat → Bool} {k : Nat} {e : Stop}
    (hvisit : ∀ i < k, ∀ c, visit i = .ok c ↔ V i ∧ c = pick i) (hV : ∀ i < k, V i) :
    collect visit Abuf.tryCmpHeapRoom k 0 [] ≠ .error (.stop e) := by
  intro hstop
  obtain ⟨i, hi, _, _, ⟨_, rfl, hvisit'⟩ | ⟨_, _, _, rfl, hroom⟩⟩ :=
    (collect_capped_error_of_kind (K := fun e' => e' = .stop e) hvisit
      fun _ => Abuf.tryCmpHeapRoom_eq_ok).mp ⟨_, rfl, hstop⟩
  · rw [(hvisit i hi (pick i)).mpr ⟨hV i hi, rfl⟩] at hvisit'
    cases hvisit'
  · exact Abuf.tryCmpHeapRoom_ne_stop hroom

theorem FinalLogs.tryCmpHeap_ne_error {hist : Nat → List Write} (hlogs : FinalLogs w0 n hist w)
    (hn : n = 2) (hshape : SameLocations n hist) (hbuild : b.ndebug = true ∨ b.redundancy = 2) (e : Stop) :
    Abuf.tryCmpHeap b (w.sei.cow 0) (w.sei.cow 1) w.mem ≠ .error e := by
  subst hn
  have h0 := hlogs.poped 0 (by decide)
  have h1 := hlogs.poped 1 (by decide)
  obtain ⟨hpushed, hsame⟩ := ((hlogs.shaped 0 (by decide)).sameLocation_iff
    (hlogs.shaped 1 (by decide))).mpr (hshape 1 (by decide) (by decide))
  have hchecks : Abuf.tryCmpHeapChecks (w.sei.cow 0) (w.sei.cow 1) w.mem ≠ .error (.stop e) := by
    refine bind_ne_error Checks.unlessReturnZero_ne_stop fun _ _ => ?_
    refine bind_ne_error Checks.unlessReturnZero_ne_stop fun _ _ => ?_
    refine bind_ne_error Checks.unlessReturnZero_ne_stop fun _ _ => ?_
    rw [h0, Nat.sub_zero]
    refine bind_ne_error (collect_ne_stop
      (fun i hi c => Abuf.tryCmpHeapVisit_eq_ok h0 h1 hpushed.symm hi)
      fun i hi => ⟨hsame i hi, hlogs.known i hi⟩) fun entry _ => ?_
    exact checkEach_ne_error fun _ _ => Checks.unlessReturnZero_ne_stop
  rw [Abuf.tryCmpHeap, Build.assert_of_or hbuild, ok_bind]
  exact bind_ne_error (Checks.verdict_ne_error hchecks) fun _ _ => ok_ne_error _ _

theorem FinalLogs.tryCmpHeapNway_ne_error {hist : Nat → List Write} (hlogs : FinalLogs w0 n hist w)
    (hn : 2 ≤ n) (hle : n ≤ b.redundancy) (hshape : SameLocations n hist) (e : Stop) :
    Abuf.tryCmpHeapNway b w.sei.cow n w.mem ≠ .error e := by
  have hsame := (hlogs.sameShape_iff (by omega)).mpr hshape
  have hchecks : Abuf.tryCmpHeapNwayChecks w.sei.cow n w.mem ≠ .error (.stop e) := by
    refine bind_ne_error (checkLoop_ne_error fun i => ?_) fun _ _ => ?_
    · exact bind_ne_error Checks.unlessReturnZero_ne_stop fun _ _ => Checks.unlessReturnZero_ne_stop
    refine bind_ne_error Checks.unlessReturnZero_ne_stop fun _ _ => ?_
    refine bind_ne_error (collect_ne_stop
      (fun i hi c => Abuf.tryCmpHeapNwayVisit_eq_ok hsame.pushed hi)
      fun i hi => ⟨fun p hp hpn => hsame.location p hp hpn i hi, hlogs.known i hi⟩) fun entry _ => ?_
    exact checkEach_ne_error fun _ _ => Checks.unlessReturnZero_ne_stop
  rw [Abuf.tryCmpHeapNway, Build.assert_of ⟨hn, hle⟩, ok_bind, inBounds_of hle, ok_bind]
  exact bind_ne_error (Checks.verdict_ne_error hchecks) fun _ _ => ok_ne_error _ _

theorem FinalLogs.rewindAll_eq {hist : Nat → List Write} (hlogs : FinalLogs w0 n hist w) :
    World.rewindAll n w.sei.cow = w.sei.cow := by
  funext i
  rw [World.rewindAll]
  split
  · next hi => rw [Abuf.rewind, ← hlogs.poped i hi]
  · rfl

/-- The comparison of the pre-check on phases that wrote to the same locations. -/
theorem FinalLogs.tryCompare_answers {hist : Nat → List Write} (hlogs : FinalLogs w0 n hist w)
    (hn : 2 ≤ n) (hle : n ≤ b.redundancy) (hshape : SameLocations n hist)
    (hbuild : b.ndebug = true ∨ n = b.redundancy ∨ 3 ≤ n) :
    ∃ r cow, World.tryCompare b n (World.rewindAll n w.sei.cow) w.mem = .ok (r, cow) ∧
      (r = true ↔ mismatches w.mem (hist 0) ≤ abufMaxConflicts ∧ Excused Duplicated w.mem (hist 0)) := by
  rw [hlogs.rewindAll_eq, World.tryCompare, World.tryCompareBy]
  split
  · next htwo =>
    have hbuild' : b.ndebug = true ∨ b.redundancy = 2 := hbuild.imp_right fun h => by omega
    obtain ⟨r, a, hrun, hr⟩ := exists_answer (hlogs.tryCmpHeap_ne_error htwo hshape hbuild')
    rw [hlogs.tryCmpHeap_iff htwo, and_iff_right hbuild',
      and_iff_right (hshape 1 (by decide) (by omega))] at hr
    rw [hrun, ok_bind]
    exact ⟨r, _, rfl, hr⟩
  · obtain ⟨r, cow, hrun, hr⟩ := exists_answer (hlogs.tryCmpHeapNway_ne_error hn hle hshape)
    rw [hlogs.tryCmpHeapNway_iff hn hle, and_iff_right hshape] at hr
    exact ⟨r, cow, hrun, hr⟩

end Comparison

/-! ## The hardened process -/

/-- What is asked of a handler that runs with `n` phases on the process `m`. The build runs the
comparisons with `n` phases; the capacities of the record of allocations and of the trash bin
are kept; the handler writes to locations of one width, and not too often to the same ones. -/
structure AllocHandler.Admissible (env : Env) (b : Build) (n : Nat) (h : AllocHandler) (m : Machine) :
    Prop where
  compared : b.ndebug = true ∨ n = b.redundancy ∨ b.cpuIsolation = true ∧ 3 ≤ n
  fits : h.Fits env ∅ ⟨Sei.init b, m⟩
  width : OneWidth (writesOf (h.operations env m))
  repeats : (writesOf (h.operations env m)).length ≤
    (shapes (writesOf (h.operations env m))).dedup.length + abufMaxConflicts

namespace World

/-- The handler as the body of a phase. -/
def allocBody (env : Env) (b : Build) (h : AllocHandler) (w : World) : Exec World :=
  Prod.snd <$> h.run env b w

/-- A transaction that runs the handler in all its phases and commits. -/
def Transacts (env : Env) (b : Build) (h : AllocHandler) (w w' : World) : Prop :=
  ∃ w1 w2, phaseStart env b (fun _ => allocBody env b h) w (w.sei.redundancyLevel - 1) = .ok w1 ∧
    allocBody env b h w1 = .ok w2 ∧ Committed env b w2 w'

/-- Runs of a hardened process from `w0`, with the steps that count. Any number of attempts of
a transaction may be interrupted in phase 0, where they have done anything but allocate or
write to a byte twice. -/
inductive Hardened (env : Env) (b : Build) (w0 : World) : List PlainStep → World → Prop where
  | start : Hardened env b w0 [] w0
  | work {steps w} (h : Hardened env b w0 steps w) (hp : w.sei.p = -1) (f : Machine → Machine) :
      Hardened env b w0 (steps ++ [.work f]) { w with machine := f w.machine }
  | set {steps w n s} (h : Hardened env b w0 steps w) (hp : w.sei.p = -1) (hn : 2 ≤ n)
      (hle : n ≤ b.redundancy) (hset : w.sei.setRedundancy b n = .ok s) :
      Hardened env b w0 steps { w with sei := s }
  | interrupted {steps w cs w1 w'} (h : Hardened env b w0 steps w)
      (hrun : World.inPhase env b (fun _ => []) w 0 cs = .ok w1) (hrequests : requests cs = [])
      (hapart : (writesOf cs).Pairwise Apart) (hrecover : w1.recover env b = .ok w') :
      Hardened env b w0 steps w'
  | transaction {steps w handler w'} (h : Hardened env b w0 steps w)
      (hadmissible : handler.Admissible env b w.sei.redundancyLevel w.machine)
      (hrun : Transacts env b handler w w') :
      Hardened env b w0 (steps ++ [.handler handler]) w'

/-! ## What holds between the transactions -/

/-- No input message is open, as `sei_prepare_nm` leaves it. -/
structure NoMessage (i : Ibuf) : Prop where
  ptr : i.ptr = 0
  size : i.size = 0
  crc : i.crc = Crc.init
  mode : i.mode = .readOnly

theorem NoMessage.correct {env : Env} {b : Build} {i : Ibuf} {mem : Mem} (h : NoMessage i) :
    i.correct env b mem = .ok true := by
  simp only [Ibuf.correct, h.mode, h.ptr, if_pos, Build.assert_of h.size, Build.assert_of h.crc,
    Build.assert_of, ok_bind]
  rfl

/-- The library is ready for the next transaction, or for the next attempt of it. -/
structure Waiting (b : Build) (w : World) : Prop where
  ready : w.Startable b w.sei.redundancyLevel
  clean : w.Clean
  room : w.sei.tbin.maxItems = tbinSize
  deferred : ∀ p < b.redundancy, w.sei.wts.nitems p = 0
  message : NoMessage w.sei.ibuf
  flags : w.sei.p = 0 → ∀ i < w.sei.redundancyLevel, w.sei.cf i = Cfc.reset

theorem waiting_init (b : Build) (mem : Mem) : (World.init b mem).Waiting b where
  ready := (idle_init b mem).startable
  clean := clean_init b mem
  room := rfl
  deferred _ _ := rfl
  message := ⟨rfl, rfl, rfl, rfl⟩
  flags _ _ _ := rfl

section Phases

variable {env : Env} {b : Build} {w0 w w' : World} {h : AllocHandler} {n k : Nat}
  {phases : Nat → List Call} {cs : List Call}

/-! ## Inside a transaction -/

/-- The flags that `sei_begin` or the rollback reset stay so. -/
theorem Startable.flags (hready : w0.Startable b n)
    (hflags : w0.sei.p = 0 → ∀ i < n, w0.sei.cf i = Cfc.reset) (hk : k < n)
    (hrun : World.inPhase env b phases w0 k cs = .ok w) : ∀ i < n, w.sei.cf i = Cfc.reset := by
  refine hready.inPhase_induction (R := fun _ _ w => ∀ i < n, w.sei.cf i = Cfc.reset) ?_ ?_ ?_ hk hrun
  · intro i hi
    rcases hready.p with hp | hp
    · rw [beginPhase_of_idle hp]
      simp [hready.level, hi]
    · rw [beginPhase, if_neg (by omega)]
      exact hflags hp i hi
  · intro k css c w w' _ _ _ hcf hrun
    rw [(call_opFrame hrun).cf]
    exact hcf
  · intro k css w w' _ _ hcf hrun
    rw [(switch_control hrun).2.2.1]
    exact hcf

theorem switch_ibuf (hrun : w.switch env b = .ok w') : w'.sei.ibuf = w.sei.ibuf.switch env w.mem := by
  simp only [World.switch, bind_eq_ok, pure_eq_ok, Except.ok.injEq] at hrun
  obtain ⟨_, _, _, _, _, _, _, _, rfl⟩ := hrun
  rfl

theorem Startable.message (hready : w0.Startable b n) (hmessage : NoMessage w0.sei.ibuf) (hk : k < n)
    (hrun : World.inPhase env b phases w0 k cs = .ok w) : NoMessage w.sei.ibuf := by
  refine hready.inPhase_induction (R := fun _ _ w => NoMessage w.sei.ibuf) ?_ ?_ ?_ hk hrun
  · unfold beginPhase
    split <;> exact hmessage
  · intro k css c w w' _ _ _ hmessage hrun
    rw [(call_opFrame hrun).ibuf]
    exact hmessage
  · intro k css w w' _ _ hmessage hrun
    rw [switch_ibuf hrun, Ibuf.switch, hmessage.mode]
    exact hmessage

/-- The phases run the handler, and so make the operations of a run on plain memory. -/
theorem Startable.allocStart (hready : w0.Startable b n) (hclean : w0.sei.tbin.Clean)
    (hfits : h.Fits env ∅ w0) (hk : k < n) :
    World.phaseStart env b (fun _ => allocBody env b h) w0 k =
      World.phaseStart env b (fun _ => World.calls env b (h.calls env w0)) w0 k := by
  induction k with
  | zero => rfl
  | succ k ih =>
    obtain ⟨w1, hstart⟩ := hready.exists_phase hclean hfits (k := k) (by omega)
    obtain ⟨w2, hrun, hcalls⟩ := hready.run_accesses hclean hfits (by omega) hstart
    rw [World.phaseStart, World.phaseStart, ih (by omega), hstart, ok_bind, ok_bind, hcalls, allocBody,
      hrun]
    rfl

/-- The last phase of a handler that fits is reached and comes to its end. -/
theorem Startable.exists_finalPhase (hready : w0.Startable b n) (hclean : w0.sei.tbin.Clean)
    (hfits : h.Fits env ∅ w0) :
    ∃ w, World.finalPhase env b (fun _ => h.calls env w0) w0 = .ok w ∧
      ∀ w', Transacts env b h w0 w' ↔ Committed env b w w' := by
  have hn := hready.two_le
  obtain ⟨w1, hstart⟩ := hready.exists_phase hclean hfits (k := n - 1) (by omega)
  obtain ⟨w2, hrun, hcalls⟩ := hready.run_accesses hclean hfits (by omega) hstart
  have hbody : allocBody env b h w1 = .ok w2 := by
    rw [allocBody, hrun]
    rfl
  refine ⟨w2, ?_, fun w' => ?_⟩
  · rw [World.finalPhase, World.inPhase, hready.level, hstart, ok_bind, hcalls]
  · rw [Transacts, hready.level, hready.allocStart hclean hfits (by omega), hstart]
    constructor
    · rintro ⟨_, w3, hw1, hw3, hcommit⟩
      cases hw1
      rw [hbody] at hw3
      cases hw3
      exact hcommit
    · intro hcommit
      exact ⟨w1, w2, rfl, hbody, hcommit⟩

/-! ## Commit -/

/-- At the end of the last phase nothing stands against a commit. -/
structure Committable (env : Env) (b : Build) (w : World) : Prop where
  last : w.sei.p = w.sei.redundancyLevel - 1
  compared : b.cpuIsolation = false →
    ∃ cow, compare b w.sei.redundancyLevel w.sei.cow w.mem = .ok cow
  precheck : b.cpuIsolation = true → ∃ cow, tryCompare b w.sei.redundancyLevel
    (rewindAll w.sei.redundancyLevel w.sei.cow) w.mem = .ok (true, cow)
  flags : ∀ i < w.sei.redundancyLevel, w.sei.cf i = Cfc.reset
  message : NoMessage w.sei.ibuf
  deferred : w.sei.wts.canFlush b = .ok true
  answered : w.sei.wts.Answered env w.machine
  frees : w.sei.tbin.Agree
  talloc_last : w.sei.talloc.p + 1 = w.sei.talloc.redundancyLevel
  counts : w.sei.talloc.SameCounts

theorem Committable.gated (hw : w.Committable env b) :
    (gates w.sei.redundancyLevel 0 w.sei.cf).1 = true :=
  (gates_of_reset fun i _ hi => hw.flags i (by omega)).1

theorem Committable.flush (hw : w.Committable env b) :
    w.sei.wts.flushWith (runCallback env b) b w.machine =
      .ok ({ w.sei.wts with
          nitems := fun p => if p < b.redundancy then 0 else w.sei.wts.nitems p },
        w.sei.wts.callItems (w.sei.wts.nitems 0) w.machine) :=
  Wts.flushWith_runCallback_eq_ok.mpr ⟨.inr hw.answered, Wts.flush_of_canFlush hw.deferred⟩

/-- With everything else in order the pre-check answers what the comparison answers. -/
theorem Committable.tryCommit_of_compare {cow cow' : Nat → Abuf} {r : Bool} (hw : w.Committable env b)
    (hcompare : tryCompare b w.sei.redundancyLevel (rewindAll w.sei.redundancyLevel cow) w.mem =
      .ok (r, cow')) :
    ∃ w', World.tryCommit env b { w with sei := { w.sei with cow := cow } } = .ok (r, w') := by
  have hfrees := Tbin.canFlush_eq_true.mpr hw.frees
  cases r with
  | false =>
    simp only [World.tryCommit, tryCommitBy, Build.assert_of hw.last, ok_bind, hcompare, if_true]
    exact ⟨_, rfl⟩
  | true =>
    simp only [World.tryCommit, tryCommitBy, Build.assert_of hw.last, ok_bind, hcompare,
      Bool.true_eq_false, if_false, hw.gated, hw.message.correct, hw.deferred, hfrees]
    exact ⟨_, rfl⟩

theorem Committable.commit_of_tryCommit {cow : Nat → Abuf} (hw : w.Committable env b)
    (hiso : b.cpuIsolation = true)
    (htry : World.tryCommit env b { w with sei := { w.sei with cow := cow } } = .ok (true, w')) :
    ∃ w'', w'.commit env b = .ok w'' := by
  have hclean := (Talloc.clean_eq_ok (b := b) hw.talloc_last).mpr ⟨hw.counts, rfl⟩
  obtain ⟨cf, rfl, haccepted⟩ := tryCommit_spec htry
  have hcommit := commit_eq_of_accepted hiso (haccepted rfl)
  simp only [hw.flush, hclean, hw.message.correct, ok_bind, require_of] at hcommit
  exact ⟨_, hcommit⟩

theorem Committable.exists_committed (hw : w.Committable env b) : ∃ w', Committed env b w w' := by
  cases hiso : b.cpuIsolation with
  | true =>
    obtain ⟨cow, hcompare⟩ := hw.precheck hiso
    obtain ⟨w1, htry⟩ := hw.tryCommit_of_compare hcompare
    obtain ⟨w', hcommit⟩ := hw.commit_of_tryCommit hiso htry
    exact ⟨w', .inr ⟨hiso, w1, htry, hcommit⟩⟩
  | false =>
    have hclean := (Talloc.clean_eq_ok (b := b) hw.talloc_last).mpr ⟨hw.counts, rfl⟩
    obtain ⟨cow, hcompare⟩ := hw.compared hiso
    have hcheck : ∀ {text : String}, checkLoop (fun i => b.assert
        (((gates w.sei.redundancyLevel 0 w.sei.cf).2 i).check = true) text)
        w.sei.redundancyLevel 0 = .ok () :=
      checkLoop_eq_ok.mpr fun i hlo hi => Build.assert_of (check_of_gates hw.gated i hlo hi)
    obtain ⟨w', hcommit⟩ : ∃ w', w.commit env b = .ok w' := by
      simp only [World.commit, commitVerify, finalCheck, hiso, Bool.false_eq_true, if_false, hw.gated,
        failIfn_of, hcompare, ok_bind, pure_eq_ok, hw.flush,
        Tbin.flush_of_agree hw.frees, hclean, hcheck, hw.message.correct, Build.assert_of]
      exact ⟨_, rfl⟩
    exact ⟨w', .inl ⟨hiso, hcommit⟩⟩

/-! ## A transaction of an admissible handler -/

theorem Waiting.fits (hw : w0.Waiting b)
    (hadmissible : h.Admissible env b w0.sei.redundancyLevel w0.machine) : h.Fits env ∅ w0 :=
  { hadmissible.fits with bin := by rw [hw.room]; exact hadmissible.fits.bin }

/-- What the phases leave for the commit. -/
structure EqualPhases (env : Env) (b : Build) (h : AllocHandler) (w0 w : World) : Prop where
  mem : w.mem = runWrites (writesOf (h.calls env w0)) w0.mem
  nalloc : w.machine.nalloc = w0.machine.nalloc + (requests (h.calls env w0)).length
  trace : w.machine.trace = w0.machine.trace
  trashed : ∀ p < w0.sei.redundancyLevel, w.sei.tbin.Trashed p (h.frees env w0)
  deferred : ∀ p < b.redundancy, w.sei.wts.nitems p = 0

theorem calls_deferred (h : AllocHandler) : (h.calls env w0).filterMap Call.deferred? = [] := by
  refine List.filterMap_eq_nil_iff.mpr fun c hc => ?_
  obtain ⟨a, _, ha⟩ := List.mem_filterMap.mp hc
  cases a <;> cases ha <;> rfl

theorem Waiting.equalPhases (hw : w0.Waiting b)
    (hrun : World.finalPhase env b (fun _ => h.calls env w0) w0 = .ok w) :
    EqualPhases env b h w0 w := by
  have hn := hw.ready.two_le
  rw [World.finalPhase] at hrun
  have hin := hw.ready.inPhase (by omega) hrun
  have hallocates := hw.ready.allocates (by omega) hrun
  refine ⟨hin.mem, ?_, hallocates.trace, fun p hp => ?_, fun p hp => ?_⟩
  · rw [hallocates.nalloc, upTo_of_le (by omega)]
  · have htrashed := hw.ready.trashed (hw.clean.tbin.nitems p) (by omega) hrun
    rwa [upTo_of_le (by omega)] at htrashed
  · have hqueued := hw.ready.queued (hw.deferred p hp) (by omega) hrun
    rw [hqueued.nitems]
    rcases Nat.lt_or_ge p w0.sei.redundancyLevel with hlt | hge
    · rw [upTo_of_le (by omega), calls_deferred]
      rfl
    · rw [upTo_of_gt (by omega)]
      rfl

theorem Waiting.finalLogs (hw : w0.Waiting b)
    (hrun : World.finalPhase env b (fun _ => h.calls env w0) w0 = .ok w) :
    FinalLogs w0 w0.sei.redundancyLevel (fun _ => writesOf (h.calls env w0)) w := by
  have hn := hw.ready.two_le
  rw [World.finalPhase] at hrun
  exact (hw.ready.inPhase (by omega) hrun).finalLogs hn fun _ => sized_writesOf _

theorem Waiting.committable (hw : w0.Waiting b)
    (hadmissible : h.Admissible env b w0.sei.redundancyLevel w0.machine)
    (hrun : World.finalPhase env b (fun _ => h.calls env w0) w0 = .ok w) : w.Committable env b := by
  have hn := hw.ready.two_le
  have hequal := hw.equalPhases hrun
  have hlogs := hw.finalLogs hrun
  rw [World.finalPhase] at hrun
  have hin := hw.ready.inPhase (by omega) hrun
  have hallocates := hw.ready.allocates (by omega) hrun
  have hshape : SameLocations w0.sei.redundancyLevel fun _ => writesOf (h.calls env w0) :=
    fun _ _ _ => rfl
  obtain ⟨hfew, hexcused⟩ := accepted_of_oneWidth w0.mem hadmissible.width hadmissible.repeats
  have hmem : w.mem = runWrites (writesOf (h.operations env w0.machine)) w0.mem := hin.mem
  rw [← hmem] at hfew hexcused
  exact {
    last := by rw [hin.p, hin.level]; omega
    compared := fun hiso => by
      rw [hin.level]
      refine hlogs.exists_compare hn hshape ?_ hfew hexcused
      rcases hadmissible.compared with hb | hb | ⟨hiso', _⟩
      · exact .inl hb
      · exact .inr hb
      · exact absurd hiso' (by simp [hiso])
    precheck := fun _ => by
      rw [hin.level]
      obtain ⟨r, cow, hcompare, hr⟩ := hlogs.tryCompare_answers hn hw.ready.le hshape
        (hadmissible.compared.imp_right (Or.imp_right And.right))
      obtain rfl := hr.mpr ⟨hfew, duplicated_of_superseded hexcused⟩
      exact ⟨cow, hcompare⟩
    flags := by
      rw [hin.level]
      exact hw.ready.flags hw.flags (by omega) hrun
    message := hw.ready.message hw.message (by omega) hrun
    deferred := Wts.canFlush_of_queued (fun d hd => by cases hd)
      fun p hp => Wts.queued_nil (hequal.deferred p hp)
    answered := Wts.answered_of_none (hequal.deferred 0 (by have := b.two_le; omega))
    frees := by
      have hlevel := hin.tbin_level
      refine Tbin.agree_of_trashed (by omega) (fun p hp => hequal.trashed p (by omega)) ?_
      exact fun ptr hptr hnull => hadmissible.fits.nonnull (hnull ▸ hptr)
    talloc_last := by rw [hin.talloc_p, hin.talloc_level]; omega
    counts := fun p hp hlt => by
      rw [hin.talloc_level] at hlt
      rw [hallocates.size p hlt, hallocates.size 0 (by omega), upTo_of_le (by omega), upTo_of_le (by omega)] }

/-- The frees of a flush, as a plain process makes them. -/
theorem freeItems_eq_freeAll {t : Tbin} {ptrs : List Nat} {m : Machine} (ht : t.Trashed 0 ptrs) {j : Nat}
    (hj : j ≤ ptrs.length) : t.freeItems env j m = AllocHandler.freeAll env (ptrs.take j) m := by
  induction j with
  | zero => rfl
  | succ j ih =>
    rw [Tbin.freeItems, ih (by omega), List.take_succ_eq_append_getElem hj, AllocHandler.freeAll,
      AllocHandler.freeAll, List.foldl_append, ht.items j hj]
    rfl

/-- The commit leaves the process as the plain run of the handler. -/
theorem EqualPhases.committed (hequal : EqualPhases env b h w0 w) (hn : 0 < w0.sei.redundancyLevel)
    (hcommit : Committed env b w w') : w'.machine = h.outcome env w0.machine := by
  have hred : 0 < b.redundancy := Nat.lt_of_lt_of_le (by decide) b.two_le
  obtain ⟨m, hcalls, hfrees⟩ := hcommit.effects
  obtain rfl := Wts.flush_of_none hcalls (hequal.deferred 0 hred)
  have hagree := Tbin.agree_of_flush hfrees
  have hzero := hequal.trashed 0 hn
  rw [Tbin.flush_of_agree hagree, Except.ok.injEq, Prod.mk.injEq] at hfrees
  rw [← hfrees.2, hzero.nitems, freeItems_eq_freeAll hzero (le_refl _), List.take_length,
    AllocHandler.outcome, AllocHandler.plainRun_eq]
  have hmachine : w.machine = { w0.machine with
      mem := runWrites (writesOf (h.operations env w0.machine)) w0.machine.mem
      nalloc := w0.machine.nalloc + (requests (h.operations env w0.machine)).length } :=
    Machine.ext hequal.mem hequal.nalloc hequal.trace
  rw [hmachine]
  rfl

theorem Committed.ibuf (hcommit : Committed env b w w') : w'.sei.ibuf = w.sei.ibuf := by
  have hsame : ∀ {w w' : World}, w.commit env b = .ok w' → w'.sei.ibuf = w.sei.ibuf := by
    intro w w' hrun
    simp only [commit, bind_eq_ok, pure_eq_ok, Except.ok.injEq] at hrun
    obtain ⟨s, hverify, _, _, _, _, _, _, _, _, _, _, _, _, rfl⟩ := hrun
    obtain ⟨_, _, rfl, _⟩ := commitVerify_frame hverify
    rfl
  rcases hcommit with ⟨_, hrun⟩ | ⟨_, w1, htry, hrun⟩
  · exact hsame hrun
  · obtain ⟨_, rfl, _⟩ := tryCommit_spec htry
    have hibuf := hsame hrun
    exact hibuf

theorem Waiting.committed (hw : w0.Waiting b)
    (hrun : World.finalPhase env b (fun _ => h.calls env w0) w0 = .ok w)
    (hcommit : Committed env b w w') : w'.Waiting b := by
  have hn := hw.ready.two_le
  obtain ⟨hidle, hclean⟩ := hw.ready.clean_committed hw.clean hrun hcommit
  obtain ⟨m, hcalls, hfrees⟩ := hcommit.effects
  rw [World.finalPhase] at hrun
  have hlevel : w'.sei.redundancyLevel = w0.sei.redundancyLevel := hidle.level
  refine ⟨hlevel ▸ hidle.startable, hclean, ?_, fun p hp => ?_, ?_, fun hp => ?_⟩
  · rw [(Tbin.flush_eq_ok hfrees).2]
    exact (hw.ready.tbin_maxItems (by omega) hrun).trans hw.room
  · simp only [Wts.flush_eq, bind_eq_ok, pure_eq_ok, Except.ok.injEq, Prod.mk.injEq] at hcalls
    obtain ⟨_, _, _, _, hwts, _⟩ := hcalls
    rw [← hwts]
    exact if_pos hp
  · rw [hcommit.ibuf]
    exact hw.ready.message hw.message (by omega) hrun
  · exact absurd (hidle.p.symm.trans hp) (by decide)

/-! ## An interrupted attempt -/

/-- Recovery from phase 0 of an attempt that allocated nothing and wrote to no byte twice puts
the process back. -/
theorem Startable.recover_machine (hready : w0.Startable b n)
    (hrun : World.inPhase env b phases w0 0 cs = .ok w) (hrequests : requests cs = [])
    (hapart : (writesOf cs).Pairwise Apart) (hrecover : w.recover env b = .ok w') :
    w'.machine = w0.machine := by
  have hn := hready.two_le
  have hin := hready.inPhase (by omega) hrun
  have hallocates := hready.allocates (by omega) hrun
  have hsize : w.sei.talloc.size 0 = 0 := by
    rw [hallocates.size 0 (by omega), upTo_self, hrequests]
    rfl
  have hrange : ∀ a, w.sei.talloc.addrInRange a = false := by
    intro a
    rw [Talloc.addrInRange, hsize]
    rfl
  have hmem : w'.mem = w0.mem := by
    have hfrom : RecoversFrom env b w w := .inl rfl
    obtain ⟨w'', hrecover', hbyte⟩ := hfrom.recover_mem hin.current (sized_writesOf cs).olds
    rw [hrecover] at hrecover'
    cases hrecover'
    funext a
    have hout : ¬ w.sei.talloc.InBlock env a := fun ⟨i, hi, _⟩ => by omega
    rw [hbyte a _ hout, hin.mem, restoresTo_olds_iff fun _ _ => hrange _]
    intro i hlast
    refine ⟨?_, fun _ => memBefore_of_apart hapart hlast.1 hlast.2.1⟩
    rintro ⟨_, _, _, hpoints⟩
    exact absurd hpoints (by simp [hrange])
  simp only [recover, rollback, bind_eq_ok, pure_eq_ok, Except.ok.injEq] at hrecover
  obtain ⟨⟨_, mem⟩, _, rfl⟩ := hrecover
  refine Machine.ext hmem ?_ ?_
  · show (Talloc.freeAllocations env (w.sei.talloc.size 0) 0 _ _).2.nalloc = _
    rw [hsize]
    show w.machine.nalloc = _
    rw [hallocates.nalloc, upTo_self, hrequests]
    rfl
  · show (Talloc.freeAllocations env (w.sei.talloc.size 0) 0 _ _).2.trace = _
    rw [hsize]
    exact hallocates.trace

/-- Recovery from any phase leaves the library ready, whatever the logs hold, if the phases after
the second have put no call aside: `wts_reset` empties the lists of the first two. -/
theorem Waiting.recovered {cow : Nat → Abuf} {cf : Nat → Cfc} (hw : w0.Waiting b)
    (hk : k < w0.sei.redundancyLevel) (hrun : World.inPhase env b phases w0 k cs = .ok w)
    (hcow : ∀ j, w0.sei.redundancyLevel ≤ j → cow j = w.sei.cow j)
    (hdeferred : ∀ p < b.redundancy, 1 < p → w.sei.wts.nitems p = 0)
    (hrecover : recover env b { w with sei := { w.sei with cow := cow, cf := cf } } = .ok w') :
    w'.Waiting b := by
  have hin := hw.ready.inPhase hk hrun
  have hfrom : RecoversFrom env b { w with sei := { w.sei with cow := cow, cf := cf } }
      { w with sei := { w.sei with cow := cow, cf := cf } } := .inl rfl
  have hpos : 0 < w.sei.redundancyLevel := by rw [hin.level]; omega
  obtain ⟨hend, hp, hobuf⟩ := hfrom.ended hpos hrecover
  have hend' : Ended w w' := { hend with
    cow_of_ge := fun j hj => (hend.cow_of_ge j hj).trans (hcow j (hin.level ▸ hj)) }
  obtain ⟨hready, _⟩ := hw.ready.recovered hw.clean.clear hk hrun hend' hp hobuf
  have hlevel : w'.sei.redundancyLevel = w0.sei.redundancyLevel := hready.level
  have hmessage := hw.ready.message hw.message hk hrun
  have hclean : w'.Clean := by
    refine hend'.clean hw.ready hw.clean hk hrun (hfrom.tbin hrecover) (fun p hp => ?_) ?_
    · exact Tbin.nitems_le_maxCount (t := w.sei.tbin) (by rwa [hin.tbin_level])
    · rw [hobuf]
      rfl
  have hroom := (hw.ready.tbin_maxItems hk hrun).trans hw.room
  simp only [recover, rollback, bind_eq_ok, pure_eq_ok, Except.ok.injEq] at hrecover
  obtain ⟨_, _, rfl⟩ := hrecover
  refine ⟨hlevel ▸ hready, hclean, hroom, fun p hlt => ?_, ?_, fun _ i hi => if_pos hi⟩
  · show Function.update (Function.update w.sei.wts.nitems 0 0) 1 0 p = 0
    by_cases hone : p = 1
    · rw [hone, Function.update_self]
    · rw [Function.update_of_ne hone]
      by_cases hzero : p = 0
      · rw [hzero, Function.update_self]
      · rw [Function.update_of_ne hzero]
        exact hdeferred p hlt (by omega)
  · exact ⟨hmessage.ptr, hmessage.size, hmessage.crc, hmessage.mode⟩

theorem Waiting.recovered_firstPhase (hw : w0.Waiting b)
    (hrun : World.inPhase env b phases w0 0 cs = .ok w) (hrecover : w.recover env b = .ok w') :
    w'.Waiting b := by
  have hn := hw.ready.two_le
  refine hw.recovered (by omega) hrun (fun _ _ => rfl) (fun p hlt hp => ?_) hrecover
  rw [(hw.ready.queued (hw.deferred p hlt) (by omega) hrun).nitems, upTo_of_gt (by omega)]
  rfl

theorem Waiting.set {s : Sei} (hw : w.Waiting b) (hp : w.sei.p = -1) (hn : 2 ≤ n)
    (hle : n ≤ b.redundancy) (hset : w.sei.setRedundancy b n = .ok s) :
    World.Waiting b { w with sei := s } := by
  have hidle : w.Idle b w.sei.redundancyLevel := { hw.ready with p := hp }
  have hready := (hidle.set hw.clean.clear hn hle hset).1
  have hlevel : s.redundancyLevel = n := hready.level
  simp only [Sei.setRedundancy, bind_eq_ok, pure_eq_ok, Except.ok.injEq] at hset
  obtain ⟨_, _, _, _, rfl⟩ := hset
  have hclean : w.sei.tbin.Clean := hw.clean.tbin
  exact {
    ready := hready.startable
    clean := { hw.clean with tbin := ⟨hclean.nitems, hclean.items⟩ }
    room := hw.room
    deferred := hw.deferred
    message := hw.message
    flags := fun hzero => absurd (hp.symm.trans hzero) (by decide) }

/-! ## Runs -/

/-- A hardened process waits for its next transaction, and has done what the plain process
does. -/
theorem Hardened.refines {mem : Mem} {steps : List PlainStep}
    (hrun : Hardened env b (World.init b mem) steps w) :
    w.Waiting b ∧ w.machine = steps.foldl (PlainStep.outcome env) ⟨mem, 0, []⟩ := by
  induction hrun with
  | start => exact ⟨waiting_init b mem, rfl⟩
  | work _ hp f ih =>
    obtain ⟨hw, hmachine⟩ := ih
    refine ⟨{ hw with ready := { hw.ready with }, clean := { hw.clean with } }, ?_⟩
    rw [List.foldl_append, ← hmachine]
    rfl
  | set _ hp hn hle hset ih => exact ⟨ih.1.set hp hn hle hset, ih.2⟩
  | interrupted _ hphase hrequests hapart hrecover ih =>
    obtain ⟨hw, hmachine⟩ := ih
    refine ⟨hw.recovered_firstPhase hphase hrecover, ?_⟩
    rw [hw.ready.recover_machine hphase hrequests hapart hrecover, hmachine]
  | transaction _ hadmissible htransacts ih =>
    obtain ⟨hw, hmachine⟩ := ih
    obtain ⟨w1, hfinal, hiff⟩ := hw.ready.exists_finalPhase hw.clean.tbin (hw.fits hadmissible)
    have hcommit := (hiff _).mp htransacts
    refine ⟨hw.committed hfinal hcommit, ?_⟩
    have hn := hw.ready.two_le
    rw [(hw.equalPhases hfinal).committed (by omega) hcommit, List.foldl_append, ← hmachine]
    rfl

/-- Whatever a hardened process has been through, its memory, its calls of the allocator and
its frees are those of the plain process, and the next admissible handler is run to its end
and committed. -/
theorem hardened_transparent {mem : Mem} {steps : List PlainStep}
    (hrun : Hardened env b (World.init b mem) steps w) :
    w.machine = steps.foldl (PlainStep.outcome env) ⟨mem, 0, []⟩ ∧
      ∀ h : AllocHandler, h.Admissible env b w.sei.redundancyLevel w.machine →
        ∃ w', Transacts env b h w w' ∧ w'.machine = h.outcome env w.machine := by
  obtain ⟨hw, hmachine⟩ := hrun.refines
  refine ⟨hmachine, fun h hadmissible => ?_⟩
  obtain ⟨w1, hfinal, hiff⟩ := hw.ready.exists_finalPhase hw.clean.tbin (hw.fits hadmissible)
  obtain ⟨w', hcommit⟩ := (hw.committable hadmissible hfinal).exists_committed
  have hn := hw.ready.two_le
  exact ⟨w', (hiff w').mpr hcommit, (hw.equalPhases hfinal).committed (by omega) hcommit⟩

/-- Allocates a block, writes to it twice and frees a block from before. -/
def writeTwiceAndFree : AllocHandler :=
  .malloc 8 fun block => .write .uint64 block 5 (.write .uint64 block 6 (.free 64 .done))

theorem admissible_writeTwiceAndFree :
    writeTwiceAndFree.Admissible Env.plain (Build.threeWay false true) 3 ⟨fun _ => 7, 0, []⟩ where
  compared := .inr (.inl rfl)
  fits := by
    have hblocks : writeTwiceAndFree.blocks Env.plain
        ⟨Sei.init (Build.threeWay false true), ⟨fun _ => 7, 0, []⟩⟩ = [4096] := rfl
    have hfrees : writeTwiceAndFree.frees Env.plain
        ⟨Sei.init (Build.threeWay false true), ⟨fun _ => 7, 0, []⟩⟩ = [64] := rfl
    have hroom : (Sei.init (Build.threeWay false true)).tbin.maxItems = 10000 := rfl
    refine ⟨?_, ?_, ⟨?_, ?_, ?_⟩, ?_, ?_⟩
    all_goals simp [hblocks, hfrees, hroom, tallocMaxAllocs]
  width := by
    have hwrites : ∀ x ∈ writesOf (writeTwiceAndFree.operations Env.plain ⟨fun _ => 7, 0, []⟩),
        x.shape = (4096, 8) := by decide
    intro x hx y hy
    exact .inl ((hwrites x hx).trans (hwrites y hy).symm)
  repeats := by decide

/-- An attempt that is interrupted after a write, and then the handler. -/
theorem hardened_writeTwiceAndFree :
    ∃ w, Hardened Env.plain (Build.threeWay false true)
        (World.init (Build.threeWay false true) fun _ => 7) [.handler writeTwiceAndFree] w ∧
      w.machine = writeTwiceAndFree.outcome Env.plain ⟨fun _ => 7, 0, []⟩ := by
  have hstart : Hardened Env.plain (Build.threeWay false true)
      (World.init (Build.threeWay false true) fun _ => 7) [] _ := .start
  have hinterrupted := @Hardened.interrupted _ _ _ _ _ [.write .uint32 4 1] _ _ hstart rfl rfl
    (List.pairwise_singleton _ _) rfl
  obtain ⟨hmachine, hnext⟩ := hardened_transparent hinterrupted
  rw [hmachine] at hnext
  obtain ⟨w', hrun, houtcome⟩ := hnext writeTwiceAndFree admissible_writeTwiceAndFree
  refine ⟨w', hinterrupted.transaction ?_ hrun, houtcome⟩
  rw [hmachine]
  exact admissible_writeTwiceAndFree

end Phases

end World

end LibSei
