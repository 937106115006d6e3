-- SUMMARY: A thread and the cores it runs on: migration between the phases, recovery on another core, the affinity set across a transaction.
import LibSei.Cores.Isolation
import LibSei.Tmi.Separation

/-!
# A thread on its cores

In a build with `SEI_CPU_ISOLATION` the thread is moved between cores by `__sei_commit`, by
the signal handler and by the check of input messages. None of this touches the state of the
transaction, so it is kept beside it: the affinity set of the thread, the core it is on, and
what `tmi.c` remembers about them.
-/

namespace LibSei

open Control

/-- The compile-time options of builds with `SEI_CPU_ISOLATION`. The bounds on
`SEI_CRC_REDUNDANCY` are the ones the preprocessor checks. -/
structure CoreOptions where
  /-- `SEI_CPU_ISOLATION_MIGRATE_PHASES`, set by `EXECUTION_CORE_REDUNDANCY=1`. -/
  migratePhases : Bool
  /-- `SEI_CRC_MIGRATE_CORES`, set by `CRC_CORE_REDUNDANCY=1`. -/
  crcMigrateCores : Bool
  /-- `SEI_CRC_REDUNDANCY`. -/
  crcRedundancy : Nat
  two_le : 2 ≤ crcRedundancy
  le_ten : crcRedundancy ≤ 10

/-- The default of `SEI_CRC_REDUNDANCY`. -/
def seiCrcRedundancy : Nat := 2

theorem two_le_seiCrcRedundancy : 2 ≤ seiCrcRedundancy := by decide

theorem seiCrcRedundancy_le_ten : seiCrcRedundancy ≤ 10 := by decide

/-- Options with the default redundancy of checksums. -/
def CoreOptions.standard (migratePhases crcMigrateCores : Bool) : CoreOptions :=
  ⟨migratePhases, crcMigrateCores, seiCrcRedundancy, two_le_seiCrcRedundancy, seiCrcRedundancy_le_ten⟩

/-- The cores as one thread sees them. `sched_getcpu` returns `core`; the other fields are
the affinity set of the thread and the variables `phase0_core`, `saved_affinity` and
`affinity_saved`. -/
@[ext] structure Cores where
  isolation : CpuIsolation
  affinity : Finset Nat
  core : Nat
  phase0Core : Int
  savedAffinity : Finset Nat
  affinitySaved : Bool

namespace Cores

/-- The first thread of a process, on a core of the affinity set it was started with. -/
def start (isolation : CpuIsolation) (affinity : Finset Nat) (core : Nat) : Cores :=
  ⟨isolation, affinity, core, -1, ∅, false⟩

/-- `pthread_setaffinity_np` on the current thread. A thread that is on a core of the set
stays there, otherwise it is moved to the first one. -/
def setAffinity (c : Cores) (cpuset : Finset Nat) : Cores :=
  { c with
    affinity := cpuset
    core := if c.core ∈ cpuset then c.core else cpuset.min.untopD c.core }

/-- The system moves the thread to another core of its affinity set. -/
def schedule (c : Cores) (core : Nat) : Cores :=
  if core ∈ c.affinity then { c with core := core } else c

/-- The cores the thread runs on while the system moves it, and where this leaves it. -/
def ranOn (c : Cores) : List Nat → List Nat × Cores
  | [] => ([c.core], c)
  | core :: moves =>
      let (cs, c') := (c.schedule core).ranOn moves
      (c.core :: cs, c')

/-- `cpu_isolation_migrate_current_thread`. -/
def migrateCurrentThread (c : Cores) : Exec Cores := do
  let (core, isolation) ← c.isolation.migrateCurrentThread
  return { c with isolation := isolation }.setAffinity {core}

/-- `cpu_isolation_migrate_excluding_core` for the core the thread is on. -/
def migrateAway (c : Cores) : Exec Cores := do
  let core ← c.isolation.migrateExcludingCore c.core
  return c.setAffinity {core}

/-- The blacklist after an error was detected: with the core of the first phase and the
current one, or with the current one only. -/
def blacklistFaulty (both : Bool) (phase0Core : Int) (c : Cores) : CpuIsolation :=
  if both then (c.isolation.blacklistCore phase0Core).blacklistCore c.core
  else c.isolation.blacklistCurrent c.core

/-- What the places that recover from an error do with the cores. -/
def recover (both : Bool) (phase0Core : Int) (c : Cores) : Exec Cores :=
  { c with isolation := c.blacklistFaulty both phase0Core }.migrateCurrentThread

/-- What `__sei_commit` does with the cores at the end of the first phase, when the phases are to
run on different cores. -/
def leavePhase0 (f : CoreOptions) (c : Cores) : Exec Cores :=
  let c :=
    if f.migratePhases || c.affinitySaved then c
    else { c with savedAffinity := c.affinity, affinitySaved := true }
  { c with phase0Core := c.core }.migrateAway

/-- What `__sei_commit` does with the cores before the next phase. -/
def switchPhase (f : CoreOptions) (coreMigration : Bool) (currentPhase : Int) (c : Cores) :
    Exec Cores :=
  if coreMigration = true ∧ currentPhase = 0 then c.leavePhase0 f else return c

/-- What `__sei_commit` does with the cores when the transaction is over. -/
def finish (f : CoreOptions) (c : Cores) : Exec Cores :=
  if f.migratePhases || !c.affinitySaved then return c
  else do
    let c ← match c.isolation.restoreAffinity c.savedAffinity with
      | some mask => pure (c.setAffinity mask)
      | none => c.migrateCurrentThread
    return { c with affinitySaved := false }

end Cores

/-- A thread with its cores. `coreMigrationEnabled` is the field `core_migration_enabled` of
`sei_t`. -/
@[ext] structure CoreThread where
  tmi : Tmi
  cores : Cores
  coreMigrationEnabled : Bool

namespace CoreThread

/-- `sei_set_core_migration`. -/
def setCoreMigration (b : Build) (t : CoreThread) (enable : Bool) : Exec CoreThread := do
  b.assert (t.tmi.sei.p = -1) "sei_set_core_migration() must be called outside transaction"
  return { t with coreMigrationEnabled := enable }

variable (f : CoreOptions) (env : Env) (b : Build)

/-- `core_migration` and `blacklist_both_cores`: the phases run on different cores. -/
def coreMigration (t : CoreThread) : Bool := f.migratePhases || t.coreMigrationEnabled

/-- `__sei_commit`. The order of its parts is of no consequence: the cores are not part of
the state of the transaction, and a process that exits has no state left. -/
def seiCommit (t : CoreThread) : Exec (Next × CoreThread) := do
  let (next, tmi) ← t.tmi.seiCommit env b
  match next with
  | .reexecute =>
      let cores ← t.cores.switchPhase f (t.coreMigration f) t.tmi.sei.p
      return (.reexecute, { t with tmi := tmi, cores := cores })
  | .retry =>
      let cores ← t.cores.recover (t.coreMigration f) t.cores.phase0Core
      let cores := if t.coreMigration f then { cores with phase0Core := -1 } else cores
      return (.retry, { t with tmi := tmi, cores := cores })
  | .committed =>
      let cores ← t.cores.finish f
      return (.committed, { t with tmi := tmi, cores := cores })

/-- `protect_handler` of builds with `SEI_SIGSEGV_RECOVERY`. -/
def protectHandler (t : CoreThread) : Exec CoreThread := do
  let tmi ← t.tmi.protectHandler env b
  let cores ← t.cores.recover false t.cores.phase0Core
  return { t with tmi := tmi, cores := cores }

/-- The end of phase `k`, as `Tmi.phases`, with the cores each phase ran on. The system moves the
thread in phase `j` as `moves j` says. -/
def phases (rbp : Nat) (os : Nat → List Op) (moves : Nat → List Nat) (t : CoreThread) :
    Nat → Exec (List (List Nat) × CoreThread)
  | 0 => do
      let (_, tmi) ← Tmi.ops env b (os 0) (t.tmi.seiBegin rbp)
      let (cs, cores) := t.cores.ranOn (moves 0)
      return ([cs], { t with tmi := tmi, cores := cores })
  | k + 1 => do
      let (css, t) ← phases rbp os moves t k
      let (_, t) ← t.seiCommit f env b
      let (_, tmi) ← Tmi.ops env b (os (k + 1)) t.tmi
      let (cs, cores) := t.cores.ranOn (moves (k + 1))
      return (css ++ [cs], { t with tmi := tmi, cores := cores })

/-- What `__sei_commit` does with the cores, by the way it goes on. -/
theorem seiCommit_cores {f : CoreOptions} {env : Env} {b : Build} {t t' : CoreThread} {next : Next}
    (h : t.seiCommit f env b = .ok (next, t')) :
    (next = .reexecute ∧
      t.cores.switchPhase f (t.coreMigration f) t.tmi.sei.p = .ok t'.cores) ∨
    (next = .retry ∧ ∃ cores,
      t.cores.recover (t.coreMigration f) t.cores.phase0Core = .ok cores ∧
      t'.cores = if t.coreMigration f then { cores with phase0Core := -1 } else cores) ∨
    (next = .committed ∧ t.cores.finish f = .ok t'.cores) := by
  simp only [seiCommit, bind_eq_ok] at h
  obtain ⟨⟨next', tmi⟩, -, h⟩ := h
  cases next' with
  | reexecute =>
    simp only [bind_eq_ok, pure_eq_ok, Except.ok.injEq, Prod.mk.injEq] at h
    obtain ⟨cores, hswitch, rfl, rfl⟩ := h
    exact .inl ⟨rfl, hswitch⟩
  | retry =>
    simp only [bind_eq_ok, pure_eq_ok, Except.ok.injEq, Prod.mk.injEq] at h
    obtain ⟨cores, hrecover, rfl, rfl⟩ := h
    exact .inr (.inl ⟨rfl, cores, hrecover, rfl⟩)
  | committed =>
    simp only [bind_eq_ok, pure_eq_ok, Except.ok.injEq, Prod.mk.injEq] at h
    obtain ⟨cores, hfinish, rfl, rfl⟩ := h
    exact .inr (.inr ⟨rfl, hfinish⟩)

/-- A thread on core 0 of four, none of them blacklisted. -/
def onFirstOfFour (b : Build) : CoreThread :=
  ⟨Tmi.init b fun _ => 0, .start ⟨0#128, 15#128, 4, 0, 0⟩ {0, 1, 2, 3} 0, false⟩

end CoreThread

/-! ## The system moves the thread -/

namespace Cores

variable {c : Cores} {core : Nat} {moves : List Nat}

@[simp] theorem schedule_isolation : (c.schedule core).isolation = c.isolation := by
  rw [schedule]
  split <;> rfl

end Cores

/-! ## The thread stays on healthy cores -/

namespace Cores

/-- The thread can only run on cores that are not blacklisted. -/
structure Safe (c : Cores) : Prop where
  valid : c.isolation.Valid
  core_mem : c.core ∈ c.affinity
  affinity : c.affinity ⊆ c.isolation.healthy
  saved : c.affinitySaved = true → ∀ i ∈ c.savedAffinity, i < c.isolation.numCores

/-- What a step of the library leaves behind: the thread is on healthy cores again, and a
recovery has left fewer of them. -/
structure After (recovered : Bool) (c c' : Cores) : Prop where
  safe : c'.Safe
  numCores : c'.isolation.numCores = c.isolation.numCores
  healthy : c'.isolation.healthy ⊆ c.isolation.healthy
  fewer : recovered = true → ∃ core ∈ c.isolation.healthy, core ∉ c'.isolation.healthy

variable {c c' : Cores} {f : CoreOptions} {cpuset : Finset Nat} {core : Nat} {both : Bool}
  {phase0Core : Int}

theorem After.same (h : c'.Safe) (hsame : c'.isolation = c.isolation) : After false c c' :=
  ⟨h, by rw [hsame], by rw [hsame], nofun⟩

/-- Every recovery costs a core. -/
theorem After.card_le {recovered : Bool} (h : After recovered c c') :
    c'.isolation.healthy.card + recovered.toNat ≤ c.isolation.healthy.card := by
  cases recovered with
  | false => exact Finset.card_le_card h.healthy
  | true =>
    obtain ⟨core, hmem, hgone⟩ := h.fewer rfl
    exact Finset.card_lt_card ⟨h.healthy, fun hall => hgone (hall hmem)⟩

theorem setAffinity_core_mem (h : cpuset.Nonempty) : (c.setAffinity cpuset).core ∈ cpuset := by
  simp only [setAffinity]
  split
  · next hmem => exact hmem
  · obtain ⟨m, hm⟩ := Finset.min_of_nonempty h
    rw [hm]
    exact Finset.mem_of_min hm

theorem Safe.core_healthy (h : c.Safe) : c.core ∈ c.isolation.healthy := h.affinity h.core_mem

theorem Safe.schedule (h : c.Safe) : (c.schedule core).Safe := by
  rw [Cores.schedule]
  split
  · next hmem => exact ⟨h.valid, hmem, h.affinity, h.saved⟩
  · exact h

/-- Giving the thread another set of healthy cores. -/
theorem Safe.setAffinity (hvalid : c.isolation.Valid)
    (hsaved : c.affinitySaved = true → ∀ i ∈ c.savedAffinity, i < c.isolation.numCores)
    (hsome : cpuset.Nonempty) (hhealthy : cpuset ⊆ c.isolation.healthy) :
    (c.setAffinity cpuset).Safe :=
  ⟨hvalid, setAffinity_core_mem hsome, hhealthy, hsaved⟩

/-- Moving the thread to a healthy core. It may be on any core before. -/
theorem migrateCurrentThread_of (hvalid : c.isolation.Valid)
    (hsaved : c.affinitySaved = true → ∀ i ∈ c.savedAffinity, i < c.isolation.numCores)
    (hsome : c.isolation.healthy.Nonempty) : ∃ c', c.migrateCurrentThread = .ok c' ∧ c'.Safe ∧
      c'.isolation.healthy = c.isolation.healthy ∧
      c'.isolation.numCores = c.isolation.numCores := by
  obtain ⟨core, s, hmigrate, hcore, rfl⟩ := hvalid.migrateCurrentThread hsome
  have hrun : c.migrateCurrentThread = .ok ({ c with isolation :=
      { c.isolation with rrCursor := ((core + 1) % c.isolation.numCores : Nat) } }.setAffinity {core}) := by
    rw [migrateCurrentThread, hmigrate, ok_bind]
    rfl
  refine ⟨_, hrun, ?_, rfl, rfl⟩
  exact Safe.setAffinity (hvalid.of_cursor _) hsaved (Finset.singleton_nonempty core)
    (Finset.singleton_subset_iff.mpr hcore)

theorem Safe.migrateAway (h : c.Safe) (hrun : c.migrateAway = .ok c') :
    c'.Safe ∧ c'.isolation = c.isolation := by
  simp only [Cores.migrateAway, bind_eq_ok, pure_eq_ok, Except.ok.injEq] at hrun
  obtain ⟨core, hcore, rfl⟩ := hrun
  obtain ⟨hhealthy, -⟩ := h.valid.migrateExcludingCore_eq_ok hcore
  exact ⟨Safe.setAffinity h.valid h.saved (Finset.singleton_nonempty core)
    (Finset.singleton_subset_iff.mpr hhealthy), rfl⟩

theorem Safe.leavePhase0 (h : c.Safe) (hrun : c.leavePhase0 f = .ok c') :
    c'.Safe ∧ c'.isolation = c.isolation := by
  simp only [Cores.leavePhase0] at hrun
  split at hrun
  · exact Safe.migrateAway (c := { c with phase0Core := c.core })
      ⟨h.valid, h.core_mem, h.affinity, h.saved⟩ hrun
  · -- What is saved is the affinity set the thread has now.
    refine Safe.migrateAway (c := ⟨c.isolation, c.affinity, c.core, c.core, c.affinity, true⟩)
      ⟨h.valid, h.core_mem, h.affinity, fun _ i hi => ?_⟩ hrun
    exact (CpuIsolation.mem_healthy.mp (h.affinity hi)).1

theorem Safe.switchPhase {coreMigration : Bool} {currentPhase : Int} (h : c.Safe)
    (hrun : c.switchPhase f coreMigration currentPhase = .ok c') :
    c'.Safe ∧ c'.isolation = c.isolation := by
  rw [Cores.switchPhase] at hrun
  split at hrun
  · exact h.leavePhase0 hrun
  · cases hrun
    exact ⟨h, rfl⟩

/-- The affinity set the transaction was begun with is restored without the cores that have been
blacklisted since, or if none is left the thread is moved. -/
theorem Safe.finish (h : c.Safe) (hrun : c.finish f = .ok c') : After false c c' := by
  simp only [Cores.finish] at hrun
  split at hrun
  · cases hrun
    exact .same h rfl
  next hsaved =>
  have hsaved : c.affinitySaved = true := by
    simp only [Bool.or_eq_true, Bool.not_eq_true', not_or, Bool.not_eq_false] at hsaved
    exact hsaved.2
  split at hrun
  · next mask hmask =>
    cases hrun
    obtain ⟨hsome, hhealthy⟩ := CpuIsolation.restoreAffinity_eq_some (h.saved hsaved) hmask
    exact .same ⟨h.valid, setAffinity_core_mem hsome, hhealthy, nofun⟩ rfl
  · obtain ⟨c1, hmigrate, hsafe, hsame, hnum⟩ :=
      migrateCurrentThread_of h.valid h.saved ⟨_, h.core_healthy⟩
    rw [hmigrate, ok_bind] at hrun
    cases hrun
    exact ⟨⟨hsafe.valid, hsafe.core_mem, hsafe.affinity, nofun⟩, hnum, hsame.subset, nofun⟩

/-! ## Recovery -/

/-- The current core is blacklisted, whatever else is. -/
theorem Safe.blacklistFaulty (h : c.Safe) (both : Bool) (phase0Core : Int) :
    (c.blacklistFaulty both phase0Core).Valid ∧
      (c.blacklistFaulty both phase0Core).numCores = c.isolation.numCores ∧
      (c.blacklistFaulty both phase0Core).healthy ⊆ c.isolation.healthy.erase c.core := by
  have hcore := (CpuIsolation.mem_healthy.mp h.core_healthy).1
  have hwidth := h.valid.le_width
  rw [Cores.blacklistFaulty]
  cases both with
  | false =>
    simp only [Bool.false_eq_true, if_false, CpuIsolation.blacklistCurrent]
    refine ⟨h.valid.blacklistBit hcore, CpuIsolation.blacklistBit_numCores, ?_⟩
    rw [CpuIsolation.healthy_blacklistBit (by omega)]
  | true =>
    simp only [if_true]
    rcases c.isolation.blacklistCore_cases phase0Core with hnone | ⟨p, hp, -, hone⟩
    · rw [hnone, CpuIsolation.blacklistCore_of_lt hcore]
      refine ⟨h.valid.blacklistBit hcore, CpuIsolation.blacklistBit_numCores, ?_⟩
      rw [CpuIsolation.healthy_blacklistBit (by omega)]
    · have hcore' : c.core < (c.isolation.blacklistBit p).numCores := by simpa using hcore
      rw [hone, CpuIsolation.blacklistCore_of_lt hcore']
      refine ⟨(h.valid.blacklistBit hp).blacklistBit hcore', by simp, ?_⟩
      rw [CpuIsolation.healthy_blacklistBit (by omega), CpuIsolation.healthy_blacklistBit (by omega)]
      exact Finset.erase_subset_erase _ (Finset.erase_subset _ _)

/-- A recovery blacklists the core the thread is on, which is healthy. It leaves the thread on a
healthy core, or no core is left. -/
theorem Safe.recover_or (h : c.Safe) (both : Bool) (phase0Core : Int) :
    (∃ c', c.recover both phase0Core = .ok c' ∧ After true c c') ∨
    c.recover both phase0Core =
      .error (.fail "cpu_isolation: all cores blacklisted, exiting process" []) ∧
      (c.blacklistFaulty both phase0Core).healthy = ∅ := by
  obtain ⟨hvalid, hnum, hsub⟩ := h.blacklistFaulty both phase0Core
  rcases (c.blacklistFaulty both phase0Core).healthy.eq_empty_or_nonempty with hempty | hsome
  · refine .inr ⟨?_, hempty⟩
    rw [Cores.recover, migrateCurrentThread, hvalid.migrateCurrentThread_of_empty hempty]
    rfl
  · obtain ⟨c', hrun, hsafe, hhealthy, hsame⟩ := migrateCurrentThread_of
      (c := { c with isolation := c.blacklistFaulty both phase0Core }) hvalid
      (fun hs i hi => hnum.symm ▸ h.saved hs i hi) hsome
    have hsub : c'.isolation.healthy ⊆ c.isolation.healthy.erase c.core := hhealthy ▸ hsub
    exact .inl ⟨c', hrun, hsafe, hsame.trans hnum, hsub.trans (Finset.erase_subset _ _),
      fun _ => ⟨c.core, h.core_healthy, fun hmem => Finset.notMem_erase _ _ (hsub hmem)⟩⟩

theorem Safe.recover (h : c.Safe) (hrun : c.recover both phase0Core = .ok c') :
    After true c c' := by
  rcases h.recover_or both phase0Core with ⟨c1, hok, hafter⟩ | ⟨hexit, -⟩
  · rw [hok] at hrun
    cases hrun
    exact hafter
  · rw [hexit] at hrun
    cases hrun

end Cores

end LibSei
