-- SUMMARY: What the settings of a transaction depend on besides the call that prepares it: the last call that said whether phases change the core.
import LibSei.Cores.Entry

/-!
# Settings across transactions

The settings of a transaction stay in the thread when it is over. All calls that prepare a
transaction set the number of its phases, but two of them leave the setting that moves the thread
to another core between the phases as they find it.
-/

namespace LibSei

open Memory Control

namespace CoreThread

/-- `__sei_commit`, in builds with or without `SEI_CPU_ISOLATION`. -/
def endPhase (f : CoreOptions) (env : Env) (b : Build) (t : CoreThread) :
    Exec (Next × CoreThread) :=
  if b.cpuIsolation then t.seiCommit f env b
  else do
    let (next, tmi) ← t.tmi.seiCommit env b
    return (next, { t with tmi := tmi })

/-- The states of a transaction begun in `t0`. -/
inductive InTransaction (f : CoreOptions) (env : Env) (b : Build) (rbp : Nat) (t0 : CoreThread) :
    CoreThread → Prop where
  | begin : InTransaction f env b rbp t0 { t0 with tmi := t0.tmi.seiBegin rbp }
  | op {t o r tmi} (h : InTransaction f env b rbp t0 t) (hop : t.tmi.op env b o = .ok (r, tmi)) :
      InTransaction f env b rbp t0 { t with tmi := tmi }
  | schedule {t} (h : InTransaction f env b rbp t0 t) (core : Nat) :
      InTransaction f env b rbp t0 { t with cores := t.cores.schedule core }
  | commit {t next t'} (h : InTransaction f env b rbp t0 t)
      (hcommit : t.endPhase f env b = .ok (next, t')) (hnext : next ≠ .committed) :
      InTransaction f env b rbp t0 t'
  | sigsegv {t t'} (h : InTransaction f env b rbp t0 t) (hsegv : t.protectHandler env b = .ok t') :
      InTransaction f env b rbp t0 t'

/-- The states of a thread after a history of completed transactions, given by the calls they were
prepared with. Between them the program may do anything to memory, take output messages out and
exchange the output buffer. -/
inductive History (f : CoreOptions) (env : Env) (b : Build) : List Entry → CoreThread → Prop where
  | init (mem : Mem) (cores : Cores) : History f env b [] ⟨Tmi.init b mem, cores, false⟩
  | work {es t} (h : History f env b es t) (machine : Machine) (obuf : Obuf) (core : Nat) :
      History f env b es
        { t with
          tmi := { t.tmi with sei := { t.tmi.sei with obuf := obuf }, machine := machine }
          cores := t.cores.schedule core }
  | transaction {es t k e r t1 rbp t2 t3} (h : History f env b es t)
      (hentry : t.entry f b k e = .ok (some r, t1)) (hin : InTransaction f env b rbp t1 t2)
      (hcommit : t2.endPhase f env b = .ok (.committed, t3)) : History f env b (es ++ [e]) t3

/-- What the calls of a history have left in `core_migration_enabled`. -/
def lastMigration (es : List Entry) : Bool :=
  es.foldl (fun enabled e => e.migration?.getD enabled) false

section History

variable {f : CoreOptions} {env : Env} {b : Build} {t t' t0 t1 t2 t1' t2' : CoreThread} {rbp : Nat}
  {es es1 es2 : List Entry} {k1 k2 : EntryRun} {e : Entry} {r1 r2 : Option Bool}

theorem coreMigrationEnabled_endPhase {next : Next} (h : t.endPhase f env b = .ok (next, t')) :
    t'.coreMigrationEnabled = t.coreMigrationEnabled := by
  rw [endPhase] at h
  split at h
  · rw [seiCommit, bind_eq_ok] at h
    obtain ⟨⟨next', tmi⟩, -, h⟩ := h
    cases next' with
    | reexecute =>
      simp only [bind_eq_ok, pure_eq_ok, Except.ok.injEq, Prod.mk.injEq] at h
      obtain ⟨_, -, -, rfl⟩ := h
      rfl
    | retry =>
      simp only [bind_eq_ok, pure_eq_ok, Except.ok.injEq, Prod.mk.injEq] at h
      obtain ⟨_, -, -, rfl⟩ := h
      rfl
    | committed =>
      simp only [bind_eq_ok, pure_eq_ok, Except.ok.injEq, Prod.mk.injEq] at h
      obtain ⟨_, -, -, rfl⟩ := h
      rfl
  · simp only [bind_eq_ok, pure_eq_ok, Except.ok.injEq, Prod.mk.injEq] at h
    obtain ⟨_, -, -, rfl⟩ := h
    rfl

/-- Nothing inside a transaction touches the setting. -/
theorem InTransaction.coreMigrationEnabled (h : InTransaction f env b rbp t0 t) :
    t.coreMigrationEnabled = t0.coreMigrationEnabled := by
  induction h with
  | begin => rfl
  | op _ _ ih => exact ih
  | schedule _ _ ih => exact ih
  | commit _ hcommit _ ih => exact (coreMigrationEnabled_endPhase hcommit).trans ih
  | sigsegv _ hsegv ih =>
    simp only [CoreThread.protectHandler, bind_eq_ok, pure_eq_ok, Except.ok.injEq] at hsegv
    obtain ⟨_, -, _, -, rfl⟩ := hsegv
    exact ih

theorem History.coreMigrationEnabled (h : History f env b es t) :
    t.coreMigrationEnabled = lastMigration es := by
  induction h with
  | init => rfl
  | work _ _ _ _ ih => exact ih
  | @transaction es t k e r t1 rbp t2 t3 _ hentry hin hcommit ih =>
    have hset : t1.coreMigrationEnabled = e.migration?.getD t.coreMigrationEnabled :=
      congrArg Configuration.coreMigrationEnabled (configuration_entry hentry)
    rw [coreMigrationEnabled_endPhase hcommit, hin.coreMigrationEnabled, hset, ih]
    simp only [lastMigration, List.foldl_append, List.foldl_cons, List.foldl_nil]

/-- Two histories and then the same call with the same arguments: the settings are the same exactly
when the call says whether phases change the core or the histories have left the same. -/
theorem configuration_eq_iff (h1 : History f env b es1 t1) (h2 : History f env b es2 t2)
    (hentry1 : t1.entry f b k1 e = .ok (r1, t1')) (hentry2 : t2.entry f b k2 e = .ok (r2, t2')) :
    t1'.configuration = t2'.configuration ↔
      (e.migration? = none → lastMigration es1 = lastMigration es2) := by
  rw [configuration_entry hentry1, configuration_entry hentry2, h1.coreMigrationEnabled,
    h2.coreMigrationEnabled]
  cases e.migration? with
  | none => simp [Configuration.uniform]
  | some enabled => simp

end History

/-! ## One transaction on four cores -/

/-- Messages are not checked. -/
def noMessage : EntryRun := ⟨fun _ _ => 0, fun _ => 0, 0⟩

/-- A transaction of two phases that do nothing. -/
theorem History.idle {f : CoreOptions} {env : Env} {b : Build} {es : List Entry} {k : EntryRun}
    {e : Entry} {r : Bool} {t t1 t2 t3 : CoreThread} (h : History f env b es t)
    (hentry : t.entry f b k e = .ok (some r, t1))
    (hphase0 : endPhase f env b { t1 with tmi := t1.tmi.seiBegin 0 } = .ok (.reexecute, t2))
    (hphase1 : t2.endPhase f env b = .ok (.committed, t3)) : History f env b (es ++ [e]) t3 :=
  h.transaction hentry (.commit .begin hphase0 (by decide)) hphase1

/-- The function for two phases on different cores was used, and then one that does not ask for
them. -/
theorem configuration_eq_afterCore :
    ∃ t1 t2 t1' t2',
      History (.standard false false) Env.plain (.twoWay false true) [.prepareNmCore] t1 ∧
      History (.standard false false) Env.plain (.twoWay false true) [] t2 ∧
      t1.entry (.standard false false) (.twoWay false true) noMessage
        (.prepareNm ⟨0, 0, 0, true⟩) = .ok (some true, t1') ∧
      t2.entry (.standard false false) (.twoWay false true) noMessage
        (.prepareNm ⟨0, 0, 0, true⟩) = .ok (some true, t2') ∧
      t1'.configuration = t2'.configuration := by
  have hinit : History (.standard false false) Env.plain (.twoWay false true) []
      (onFirstOfFour (.twoWay false true)) := .init _ _
  obtain ⟨t1, t1', h1, hentry1⟩ : ∃ t1 t1',
      History (.standard false false) Env.plain (.twoWay false true) [.prepareNmCore] t1 ∧
      t1.entry (.standard false false) (.twoWay false true) noMessage
        (.prepareNm ⟨0, 0, 0, true⟩) = .ok (some true, t1') :=
    ⟨_, _, hinit.idle (k := noMessage) (e := .prepareNmCore) rfl rfl rfl, rfl⟩
  obtain ⟨t2', hentry2⟩ : ∃ t2', (onFirstOfFour (.twoWay false true)).entry (.standard false false)
      (.twoWay false true) noMessage (.prepareNm ⟨0, 0, 0, true⟩) = .ok (some true, t2') := ⟨_, rfl⟩
  exact ⟨t1, _, t1', t2', h1, hinit, hentry1, hentry2,
    (configuration_eq_iff h1 hinit hentry1 hentry2).mpr nofun⟩

/-- After a transaction on two cores, one with two phases that does not ask for them is run on two
cores as well. -/
theorem configuration_keptCore :
    ∃ t1 t2 t1' t2',
      History (.standard false false) Env.plain (.twoWay false true) [.prepareNmCore] t1 ∧
      History (.standard false false) Env.plain (.twoWay false true)
        [.prepareNm ⟨0, 0, 0, true⟩] t2 ∧
      t1.entry (.standard false false) (.twoWay false true) noMessage (.prepareNmN 2) =
        .ok (some true, t1') ∧
      t2.entry (.standard false false) (.twoWay false true) noMessage (.prepareNmN 2) =
        .ok (some true, t2') ∧
      t1'.configuration = .uniform 2 true ∧ t2'.configuration = .uniform 2 false := by
  have hinit : History (.standard false false) Env.plain (.twoWay false true) []
      (onFirstOfFour (.twoWay false true)) := .init _ _
  exact ⟨_, _, _, _, hinit.idle (k := noMessage) (e := .prepareNmCore) rfl rfl rfl,
    hinit.idle (k := noMessage) (e := .prepareNm ⟨0, 0, 0, true⟩) rfl rfl rfl, rfl, rfl, rfl, rfl⟩

end CoreThread

end LibSei
