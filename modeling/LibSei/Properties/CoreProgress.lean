-- SUMMARY: Every recovery takes a core out of use and leaves the thread on healthy ones; when the process ends for another reason than that no core is left.
import LibSei.Cores.Prepare

/-!
# Recovery makes progress

A detected error is answered by another attempt, and nothing limits the number of attempts.
What does is the blacklist: the thread only ever runs on cores that are not on it, so the core
on which the next error is detected is a new one. The process is meant to end only when all cores
are blacklisted. It ends before that when the thread is to be moved away from the last healthy
core, and at the second `SIGSEGV` of its transactions: the handler leaves the signal blocked.
-/

namespace LibSei

open Control

/-- A process with one thread. `SIGSEGV` is blocked while its handler runs, and the handler is left
through `__sei_switch`, which does not put the signal mask back. -/
structure CoreProcess where
  thread : CoreThread
  sigsegvBlocked : Bool

namespace CoreProcess

/-- One step of a process with one thread, and whether it recovered from an error. What the
program and the library do apart from the cores may change the rest of the state in any way; the
system may move the thread, and the program may unblock the signal, at any time. Messages are
checked outside transactions. -/
inductive Step (f : CoreOptions) (env : Env) (b : Build) :
    CoreProcess → Bool → CoreProcess → Prop where
  | work (s : CoreProcess) (tmi : Tmi) :
      Step f env b s false { s with thread := { s.thread with tmi := tmi } }
  | schedule (s : CoreProcess) (core : Nat) :
      Step f env b s false
        { s with thread := { s.thread with cores := s.thread.cores.schedule core } }
  | unblock (s : CoreProcess) : Step f env b s false { s with sigsegvBlocked := false }
  | setCoreMigration {s : CoreProcess} {enable t} (h : s.thread.setCoreMigration b enable = .ok t) :
      Step f env b s false { s with thread := t }
  | commit {s : CoreProcess} {next t} (h : s.thread.seiCommit f env b = .ok (next, t)) :
      Step f env b s (next == .retry) { s with thread := t }
  | sigsegv {s : CoreProcess} {t} (hfree : s.sigsegvBlocked = false)
      (h : s.thread.protectHandler env b = .ok t) : Step f env b s true ⟨t, true⟩
  | checkRound {s : CoreProcess} {i results moved check cores} (hp : s.thread.tmi.sei.p = -1)
      (h : s.thread.cores.checkRound f i results moved = .ok (check, cores)) :
      Step f env b s (check == .sdc) { s with thread := { s.thread with cores := cores } }

/-- The states a process can come to from `s0`, with the number of recoveries on the way. -/
inductive Run (f : CoreOptions) (env : Env) (b : Build) (s0 : CoreProcess) :
    Nat → CoreProcess → Prop where
  | start : Run f env b s0 0 s0
  | step {n s recovered s'} (h : Run f env b s0 n s) (hstep : Step f env b s recovered s') :
      Run f env b s0 (n + recovered.toNat) s'

/-- The management of the cores, or a `SIGSEGV` of the transaction, ends the process in its next
step and leaves this blacklist. A recovery may be that of `__sei_commit` or of the handler. -/
inductive Ends (f : CoreOptions) (env : Env) (b : Build) (s : CoreProcess) : CpuIsolation → Prop where
  | recovery {both phase0Core e} (h : s.thread.cores.recover both phase0Core = .error e) :
      Ends f env b s (s.thread.cores.blacklistFaulty both phase0Core)
  | switchPhase {tmi e} (hnext : s.thread.tmi.seiCommit env b = .ok (.reexecute, tmi))
      (h : s.thread.cores.switchPhase f (s.thread.coreMigration f) s.thread.tmi.sei.p = .error e) :
      Ends f env b s s.thread.cores.isolation
  | finish {tmi e} (hnext : s.thread.tmi.seiCommit env b = .ok (.committed, tmi))
      (h : s.thread.cores.finish f = .error e) : Ends f env b s s.thread.cores.isolation
  | migrateForCheck {moved e} (hp : s.thread.tmi.sei.p = -1)
      (h : s.thread.cores.migrateForCheck f moved = .error e) :
      Ends f env b s s.thread.cores.isolation
  | checkRecovery {i : Ibuf} {results moved cores e} (hp : s.thread.tmi.sei.p = -1)
      (hmigrate : s.thread.cores.migrateForCheck f moved = .ok cores)
      (hcheck : i.correctOnEntrySafe f results = .sdc)
      (h : cores.recover f.crcMigrateCores s.thread.cores.core = .error e) :
      Ends f env b s (cores.blacklistFaulty f.crcMigrateCores s.thread.cores.core)
  | sigsegv (hblocked : s.sigsegvBlocked = true) (hp : 0 ≤ s.thread.tmi.sei.p) :
      Ends f env b s s.thread.cores.isolation

/-! ## Steps and runs -/

variable {f : CoreOptions} {env : Env} {b : Build} {s0 s s' : CoreProcess} {n : Nat}
  {recovered : Bool}

theorem after_seiCommit {t t' : CoreThread} {next : Next} (hsafe : t.cores.Safe)
    (h : t.seiCommit f env b = .ok (next, t')) :
    Cores.After (next == .retry) t.cores t'.cores := by
  rcases CoreThread.seiCommit_cores h with ⟨rfl, hswitch⟩ | ⟨rfl, cores, hrecover, hcores⟩ | ⟨rfl, hfinish⟩
  · obtain ⟨hafter, hsame⟩ := hsafe.switchPhase hswitch
    exact .same hafter hsame
  · have hafter := hsafe.recover hrecover
    -- Forgetting the core of the first phase changes nothing else.
    rw [hcores]
    split
    · exact ⟨⟨hafter.safe.valid, hafter.safe.core_mem, hafter.safe.affinity, hafter.safe.saved⟩,
        hafter.numCores, hafter.healthy, hafter.fewer⟩
    · exact hafter
  · exact hsafe.finish hfinish

theorem Step.after (h : Step f env b s recovered s') (hsafe : s.thread.cores.Safe) :
    Cores.After recovered s.thread.cores s'.thread.cores := by
  cases h with
  | work => exact .same hsafe rfl
  | schedule => exact .same hsafe.schedule Cores.schedule_isolation
  | unblock => exact .same hsafe rfl
  | setCoreMigration h =>
    simp only [CoreThread.setCoreMigration, bind_eq_ok, pure_eq_ok, Except.ok.injEq] at h
    obtain ⟨-, -, rfl⟩ := h
    exact .same hsafe rfl
  | commit h => exact after_seiCommit hsafe h
  | sigsegv _ h =>
    simp only [CoreThread.protectHandler, bind_eq_ok, pure_eq_ok, Except.ok.injEq] at h
    obtain ⟨tmi, -, cores, hrecover, rfl⟩ := h
    exact hsafe.recover hrecover
  | checkRound _ h => exact hsafe.checkRound h

/-- Along a run the thread stays on healthy cores, and every recovery has cost at least one. -/
theorem Run.safe (h : Run f env b s0 n s) (hsafe : s0.thread.cores.Safe) :
    s.thread.cores.Safe ∧
      s.thread.cores.isolation.numCores = s0.thread.cores.isolation.numCores ∧
      s.thread.cores.isolation.healthy.card + n ≤ s0.thread.cores.isolation.healthy.card := by
  induction h with
  | start => exact ⟨hsafe, rfl, le_refl _⟩
  | step _ hstep ih =>
    obtain ⟨hsafe, hnum, hcard⟩ := ih
    have hafter := hstep.after hsafe
    have hless := hafter.card_le
    exact ⟨hafter.safe, hafter.numCores.trans hnum, by omega⟩

/-- The loop of `ibuf_prepare` is a run of the process, followed round by round. -/
theorem Run.checkLoop {i : Ibuf} {results : Nat → Nat → UInt32} {moved : Nat → Nat} {rounds : Nat}
    {r : Option Bool} {cores : Cores} (h : Run f env b s0 n s) (hp : s.thread.tmi.sei.p = -1)
    (hrun : s.thread.cores.checkLoop f i results moved rounds = .ok (r, cores)) :
    ∃ m, Run f env b s0 m { s with thread := { s.thread with cores := cores } } := by
  induction rounds generalizing n s with
  | zero =>
    cases hrun
    exact ⟨n, h⟩
  | succ rounds ih =>
    simp only [Cores.checkLoop, bind_eq_ok] at hrun
    obtain ⟨⟨check, cores1⟩, hround, hrun⟩ := hrun
    have hnext := h.step (.checkRound hp hround)
    cases check with
    | correct =>
      cases hrun
      exact ⟨_, hnext⟩
    | corrupted =>
      cases hrun
      exact ⟨_, hnext⟩
    | sdc => exact ih (s := { s with thread := { s.thread with cores := cores1 } }) hnext hp hrun

theorem safe_start {isolation : CpuIsolation} {affinity : Finset Nat} {numCores core : Nat}
    (hinit : CpuIsolation.init numCores = .ok isolation) (hcore : core ∈ affinity)
    (haffinity : ∀ c ∈ affinity, c < numCores) : (Cores.start isolation affinity core).Safe := by
  obtain ⟨hvalid, rfl, -, hclear⟩ := CpuIsolation.valid_init hinit
  exact ⟨hvalid, hcore, fun c hc => CpuIsolation.mem_healthy.mpr ⟨haffinity c hc, hclear c⟩, nofun⟩

/-- In every state a process can come to outside transactions, `ibuf_prepare` ends after fewer rounds
than there are cores, unless the process does, and the thread goes on from where it then is. -/
theorem Run.prepare {i i' : Ibuf} {c : Cores} {ptr size rounds : Nat} {crc : UInt32}
    {mode : IbufMode} {results : Nat → Nat → UInt32} {moved : Nat → Nat} {r : Option Bool}
    (hrun : Run f env b s0 n s) (hp : s.thread.tmi.sei.p = -1) (hsafe : s0.thread.cores.Safe)
    (hrounds : s0.thread.cores.isolation.numCores < rounds)
    (h : i.prepare f b s.thread.cores ptr size crc mode results moved rounds = .ok (r, i', c)) :
    r ≠ none ∧ ∃ m, Run f env b s0 m { s with thread := { s.thread with cores := c } } := by
  obtain ⟨hsafe, hnum, -⟩ := hrun.safe hsafe
  have hcard : s.thread.cores.isolation.healthy.card < rounds := by
    have hcount := hsafe.valid.count
    omega
  simp only [Ibuf.prepare, bind_eq_ok] at h
  obtain ⟨_, -, h⟩ := h
  split at h
  · simp only [bind_eq_ok, pure_eq_ok, Except.ok.injEq, Prod.mk.injEq] at h
    obtain ⟨_, -, _, -, _, -, rfl, -, rfl⟩ := h
    exact ⟨Option.some_ne_none _, n, hrun⟩
  split at h
  · simp only [bind_eq_ok, pure_eq_ok, Except.ok.injEq, Prod.mk.injEq] at h
    obtain ⟨⟨r', c'⟩, hloop, rfl, -, rfl⟩ := h
    exact ⟨hsafe.checkLoop_ne_none hcard hloop, hrun.checkLoop hp hloop⟩
  · simp only [bind_eq_ok, pure_eq_ok, Except.ok.injEq, Prod.mk.injEq] at h
    obtain ⟨_, -, rfl, -, rfl⟩ := h
    exact ⟨Option.some_ne_none _, n, hrun⟩

/-! ## Ends -/

end CoreProcess

namespace Cores

variable {f : CoreOptions} {c c' : Cores} {e : Stop}

/-- A thread on the last healthy core cannot be moved away. -/
theorem Safe.migrateAway_fails_iff (h : c.Safe) :
    (∃ e, c.migrateAway = .error e) ↔ c.isolation.healthy.card < 2 := by
  have hcore := h.core_healthy
  rw [Cores.migrateAway]
  cases hnew : c.isolation.migrateExcludingCore c.core with
  | error e =>
    refine ⟨fun _ => ?_, fun _ => ⟨e, rfl⟩⟩
    by_contra htwo
    obtain ⟨new, hok, -⟩ := h.valid.exists_migrateExcludingCore (not_lt.mp htwo) c.core
    rw [hok] at hnew
    cases hnew
  | ok new =>
    obtain ⟨hhealthy, hne⟩ := h.valid.migrateExcludingCore_eq_ok hnew
    have htwo : 2 ≤ c.isolation.healthy.card :=
      Finset.one_lt_card.mpr ⟨new, hhealthy, c.core, hcore, hne⟩
    exact iff_of_false (not_exists.mpr fun _ => ok_ne_error _ _) (not_lt.mpr htwo)

theorem Safe.switchPhase_fails_iff {coreMigration : Bool} {currentPhase : Int} (h : c.Safe) :
    (∃ e, c.switchPhase f coreMigration currentPhase = .error e) ↔
      (coreMigration = true ∧ currentPhase = 0) ∧ c.isolation.healthy.card < 2 := by
  rw [Cores.switchPhase]
  split
  · next hmigrates =>
    rw [and_iff_right hmigrates, Cores.leavePhase0]
    split
    · exact Safe.migrateAway_fails_iff (c := { c with phase0Core := c.core })
        ⟨h.valid, h.core_mem, h.affinity, h.saved⟩
    · refine Safe.migrateAway_fails_iff
        (c := ⟨c.isolation, c.affinity, c.core, c.core, c.affinity, true⟩)
        ⟨h.valid, h.core_mem, h.affinity, fun _ i hi => ?_⟩
      exact (CpuIsolation.mem_healthy.mp (h.affinity hi)).1
  · next hstays =>
    exact iff_of_false (not_exists.mpr fun _ => ok_ne_error _ _) fun hmigrates => hstays hmigrates.1

theorem Safe.migrateForCheck_fails_iff (h : c.Safe) (moved : Nat) :
    (∃ e, c.migrateForCheck f moved = .error e) ↔
      f.crcMigrateCores = true ∧ c.isolation.healthy.card < 2 := by
  rw [Cores.migrateForCheck]
  split
  · next hmigrates =>
    rw [and_iff_right hmigrates, h.schedule.migrateAway_fails_iff, schedule_isolation]
  · next hstays =>
    exact iff_of_false (not_exists.mpr fun _ => ok_ne_error _ _) fun hmigrates => hstays hmigrates.1

/-- A thread on a healthy core finds one when the transaction is over. -/
theorem Safe.finish_ne_error (h : c.Safe) : c.finish f ≠ .error e := by
  rw [Cores.finish]
  split
  · exact ok_ne_error _ _
  · split
    · exact ok_ne_error _ _
    · obtain ⟨c', hmigrate, -⟩ := migrateCurrentThread_of h.valid h.saved ⟨_, h.core_healthy⟩
      rw [hmigrate]
      exact ok_ne_error _ _

/-- A recovery ends the process only when it has blacklisted the last core. -/
theorem Safe.blacklisted_of_recover {both : Bool} {phase0Core : Int} (h : c.Safe)
    (herror : c.recover both phase0Core = .error e) :
    ∀ core < c.isolation.numCores, (c.blacklistFaulty both phase0Core).Blacklisted core := by
  rcases h.recover_or both phase0Core with ⟨c', hok, -⟩ | ⟨-, hempty⟩
  · rw [hok] at herror
    cases herror
  · intro core hcore
    by_contra hnot
    have hmem : core ∈ (c.blacklistFaulty both phase0Core).healthy :=
      CpuIsolation.mem_healthy.mpr ⟨by rw [(h.blacklistFaulty both phase0Core).2.1]; exact hcore, hnot⟩
    rw [hempty] at hmem
    exact Finset.notMem_empty core hmem

end Cores

namespace CoreProcess

variable {f : CoreOptions} {env : Env} {b : Build} {s0 s s' : CoreProcess} {n : Nat}

/-- Where the process does not end before all cores are blacklisted: `SIGSEGV` is not blocked in a
transaction, and a thread on the last healthy core is not about to be moved away from it. -/
def Lasts (f : CoreOptions) (env : Env) (b : Build) (s : CoreProcess) : Prop :=
  (s.sigsegvBlocked = true → s.thread.tmi.sei.p < 0) ∧
    (s.thread.cores.isolation.healthy.card < 2 →
      (s.thread.tmi.sei.p = -1 → f.crcMigrateCores = false) ∧
      ∀ tmi, s.thread.tmi.seiCommit env b = .ok (.reexecute, tmi) →
        s.thread.tmi.sei.p = 0 → s.thread.coreMigration f = false)

theorem ends_iff_lasts (hsafe : s.thread.cores.Safe) :
    (∀ isolation, Ends f env b s isolation →
      ∀ c < s.thread.cores.isolation.numCores, isolation.Blacklisted c) ↔ Lasts f env b s := by
  obtain ⟨hlt, hclear⟩ := CpuIsolation.mem_healthy.mp hsafe.core_healthy
  constructor
  · intro hends
    have hnot : ¬ Ends f env b s s.thread.cores.isolation := fun h => hclear (hends _ h _ hlt)
    refine ⟨fun hblocked => ?_, fun hone => ⟨fun hp => ?_, fun tmi hnext hp => ?_⟩⟩
    · by_contra hin
      exact hnot (.sigsegv hblocked (not_lt.mp hin))
    · by_contra hcross
      obtain ⟨e, he⟩ := (hsafe.migrateForCheck_fails_iff 0).mpr
        ⟨Bool.not_eq_false _ ▸ hcross, hone⟩
      exact hnot (.migrateForCheck hp he)
    · by_contra hmigrates
      obtain ⟨e, he⟩ := (hsafe.switchPhase_fails_iff (f := f)).mpr
        ⟨⟨Bool.not_eq_false _ ▸ hmigrates, hp⟩, hone⟩
      exact hnot (.switchPhase hnext he)
  · rintro ⟨hfree, hlast⟩ isolation hend
    cases hend with
    | recovery h => exact hsafe.blacklisted_of_recover h
    | switchPhase hnext h =>
      obtain ⟨⟨hmigrates, hp⟩, hone⟩ := hsafe.switchPhase_fails_iff.mp ⟨_, h⟩
      have hstays := (hlast hone).2 _ hnext hp
      rw [hmigrates] at hstays
      cases hstays
    | finish _ h => exact absurd h hsafe.finish_ne_error
    | migrateForCheck hp h =>
      obtain ⟨hcross, hone⟩ := (hsafe.migrateForCheck_fails_iff _).mp ⟨_, h⟩
      have hstays := (hlast hone).1 hp
      rw [hcross] at hstays
      cases hstays
    | checkRecovery _ hmigrate _ h =>
      obtain ⟨hsafe', hsame⟩ := hsafe.migrateForCheck hmigrate
      exact hsame ▸ hsafe'.blacklisted_of_recover h
    | sigsegv hblocked hp => exact absurd (hfree hblocked) (not_lt.mpr hp)

/-- However a process is run and whatever errors are detected: the affinity set of the thread is
not empty and has no blacklisted core; a recovery blacklists a core that was not blacklisted;
and there have been fewer recoveries than there are cores. That the process ends only when all
cores are blacklisted is so exactly where `SIGSEGV` is not blocked in a transaction and the thread
is not about to be moved away from the last healthy core. -/
theorem recovery_progress_iff {isolation : CpuIsolation} {affinity : Finset Nat}
    {numCores core : Nat} {tmi : Tmi} {enabled : Bool}
    (hinit : CpuIsolation.init numCores = .ok isolation)
    (hcore : core ∈ affinity) (haffinity : ∀ c ∈ affinity, c < numCores)
    (hrun : Run f env b ⟨⟨tmi, Cores.start isolation affinity core, enabled⟩, false⟩ n s) :
    s.thread.cores.affinity.Nonempty ∧
    (∀ c ∈ s.thread.cores.affinity, ¬ s.thread.cores.isolation.Blacklisted c) ∧
    (∀ s', Step f env b s true s' → ∃ c < numCores,
      ¬ s.thread.cores.isolation.Blacklisted c ∧ s'.thread.cores.isolation.Blacklisted c) ∧
    n < numCores ∧
    ((∀ isolation, Ends f env b s isolation → ∀ c < numCores, isolation.Blacklisted c) ↔
      Lasts f env b s) := by
  have hvalid := CpuIsolation.valid_init hinit
  obtain ⟨hsafe, hnum, hcard⟩ := hrun.safe (safe_start hinit hcore haffinity)
  have hnum : s.thread.cores.isolation.numCores = numCores := hnum.trans hvalid.2.1
  refine ⟨⟨_, hsafe.core_mem⟩, fun c hc => (CpuIsolation.mem_healthy.mp (hsafe.affinity hc)).2,
    fun s' hstep => ?_, ?_, hnum ▸ ends_iff_lasts hsafe⟩
  · have hafter := hstep.after hsafe
    obtain ⟨c, hc, hgone⟩ := hafter.fewer rfl
    obtain ⟨hlt, hclear⟩ := CpuIsolation.mem_healthy.mp hc
    refine ⟨c, hnum ▸ hlt, hclear, ?_⟩
    by_contra hnot
    exact hgone (CpuIsolation.mem_healthy.mpr ⟨hafter.numCores ▸ hlt, hnot⟩)
  · have hstart : isolation.healthy.card ≤ numCores := by
      have hcount := hvalid.1.count
      omega
    have hpos := Finset.card_pos.mpr ⟨_, hsafe.core_healthy⟩
    have hcard : s.thread.cores.isolation.healthy.card + n ≤ isolation.healthy.card := hcard
    omega

/-! ## Errors on three and on two cores -/

/-- Three cores, none of them blacklisted. -/
def threeCores : CpuIsolation := ⟨0#128, 7#128, 3, 0, 0⟩

/-- The cores after a checksum was computed wrongly on core 0. -/
def onCore1 : Cores := ⟨⟨1#128, 7#128, 3, 1, 2⟩, {1}, 1, -1, ∅, false⟩

/-- A process that has not begun a transaction. -/
def idleProcess (cores : Cores) : CoreProcess :=
  ⟨⟨Tmi.init (.twoWay false true) fun _ => 0, cores, false⟩, false⟩

/-- The process has begun a transaction. -/
def begun (s : CoreProcess) : CoreProcess :=
  { s with thread := { s.thread with tmi := s.thread.tmi.seiBegin 0 } }

theorem run_wrongChecksum : Run (.standard false false) Env.plain (.twoWay false true)
    (idleProcess (.start threeCores {0, 1, 2} 0)) 1 (begun (idleProcess onCore1)) := by
  have hround : (Cores.start threeCores {0, 1, 2} 0).checkRound (.standard false false)
      ⟨8, 1, 0, 0, .readOnly, 0⟩ (fun i => i.toUInt32) 0 = .ok (.sdc, onCore1) := rfl
  have hchecked : Run (.standard false false) Env.plain (.twoWay false true)
      (idleProcess (.start threeCores {0, 1, 2} 0)) 1 (idleProcess onCore1) :=
    Run.start.step (.checkRound (s := idleProcess (.start threeCores {0, 1, 2} 0)) rfl hround)
  exact hchecked.step (.work _ _)

/-- After one error a process on three cores ends only when all of them are blacklisted. -/
theorem recovery_progress_wrongChecksum :
    Run (.standard false false) Env.plain (.twoWay false true)
      (idleProcess (.start threeCores {0, 1, 2} 0)) 1 (begun (idleProcess onCore1)) ∧ 1 < 3 ∧
    ∀ isolation, Ends (.standard false false) Env.plain (.twoWay false true)
      (begun (idleProcess onCore1)) isolation → ∀ c < 3, isolation.Blacklisted c := by
  have hinit : CpuIsolation.init 3 = .ok threeCores := rfl
  obtain ⟨-, -, -, hless, hiff⟩ :=
    recovery_progress_iff hinit (by decide) (by decide) run_wrongChecksum
  exact ⟨run_wrongChecksum, hless, hiff.mpr ⟨fun h => (by cases h), fun h => absurd h (by decide)⟩⟩

/-- Two cores, none of them blacklisted. -/
def twoCores : CpuIsolation := ⟨0#128, 3#128, 2, 0, 0⟩

/-- The cores after a checksum was computed wrongly on core 0 of two. -/
def onLastCore : Cores := ⟨⟨1#128, 3#128, 2, 1, 0⟩, {1}, 1, -1, ∅, false⟩

/-- The phases run on different cores, and core 0 of two is blacklisted: a transaction without a
fault ends the process after its first phase, though core 1 is healthy. On three cores the second
`SIGSEGV` of a transaction ends it. -/
theorem ends_with_healthy_core :
    (∃ s, Run (.standard true false) Env.plain (.twoWay false true)
        (idleProcess (.start twoCores {0, 1} 0)) 1 s ∧
      Ends (.standard true false) Env.plain (.twoWay false true) s ⟨1#128, 3#128, 2, 1, 0⟩ ∧
      ¬ CpuIsolation.Blacklisted ⟨1#128, 3#128, 2, 1, 0⟩ 1) ∧
    ∃ s isolation, Run (.standard false false) Env.plain (.twoWay false true)
        (idleProcess (.start threeCores {0, 1, 2} 0)) 1 s ∧
      Ends (.standard false false) Env.plain (.twoWay false true) s isolation ∧
      ¬ isolation.Blacklisted 1 := by
  constructor
  · have hround : (Cores.start twoCores {0, 1} 0).checkRound (.standard true false)
        ⟨8, 1, 0, 0, .readOnly, 0⟩ (fun i => i.toUInt32) 0 = .ok (.sdc, onLastCore) := rfl
    have hchecked : Run (.standard true false) Env.plain (.twoWay false true)
        (idleProcess (.start twoCores {0, 1} 0)) 1 (idleProcess onLastCore) :=
      Run.start.step (.checkRound (s := idleProcess (.start twoCores {0, 1} 0)) rfl hround)
    refine ⟨begun (idleProcess onLastCore), hchecked.step (.work _ _), ?_, by decide⟩
    exact Ends.switchPhase (s := begun (idleProcess onLastCore)) rfl rfl
  · have hbegun : Run (.standard false false) Env.plain (.twoWay false true)
        (idleProcess (.start threeCores {0, 1, 2} 0)) 0
        (begun (idleProcess (.start threeCores {0, 1, 2} 0))) := Run.start.step (.work _ _)
    obtain ⟨t, ht, hp, hclear⟩ : ∃ t, (begun (idleProcess
        (.start threeCores {0, 1, 2} 0))).thread.protectHandler Env.plain (.twoWay false true) = .ok t ∧
        0 ≤ t.tmi.sei.p ∧ ¬ t.cores.isolation.Blacklisted 1 := ⟨_, rfl, by decide, by decide⟩
    exact ⟨_, _, hbegun.step (.sigsegv rfl ht), .sigsegv rfl hp, hclear⟩

end CoreProcess

end LibSei
