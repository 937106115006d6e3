-- SUMMARY: The six functions that prepare a transaction and the settings of the thread each of them makes.
import LibSei.Cores.Prepare

/-!
# Preparing a transaction

A program calls one of six functions before it begins a transaction, with or without an input
message, and with a number of phases or with two phases on different cores. The settings they make
are kept in the thread until they are made again.
-/

namespace LibSei

open Control

/-- An input message as it is handed to the library. -/
structure Input where
  ptr : Nat
  size : Nat
  crc : UInt32
  ro : Bool

/-- What `ibuf_prepare` meets: the results of `crc_compute` by round and call, the cores the
system moves the thread to, and the number of rounds its loop is followed for. -/
structure EntryRun where
  results : Nat → Nat → UInt32
  moved : Nat → Nat
  rounds : Nat

/-- The `memset` calls before a transaction without an input message. -/
def Ignore.clearRanges (g : Ignore) : Ignore :=
  { g with addrS := fun _ => 0, addrE := fun _ => 0, num := 0 }

namespace CoreThread

def setSei (t : CoreThread) (s : Sei) : CoreThread := { t with tmi := { t.tmi with sei := s } }

def clearRanges (t : CoreThread) : CoreThread :=
  { t with tmi := { t.tmi with ignore := t.tmi.ignore.clearRanges } }

/-- `sei_set_redundancy`. -/
def setRedundancy (b : Build) (t : CoreThread) (redundancyLevel : Nat) : Exec CoreThread := do
  let s ← t.tmi.sei.setRedundancy b redundancyLevel
  return t.setSei s

variable (f : CoreOptions) (b : Build) (k : EntryRun)

/-- `ibuf_prepare` on the message of the thread. -/
def ibufPrepare (t : CoreThread) (ptr size : Nat) (crc : UInt32) (mode : IbufMode) :
    Exec (Option Bool × CoreThread) := do
  let (r, ibuf, cores) ←
    t.tmi.sei.ibuf.prepare f b t.cores ptr size crc mode k.results k.moved k.rounds
  return (r, { t.setSei { t.tmi.sei with ibuf := ibuf } with cores := cores })

/-- `sei_prepare`. -/
def prepare (t : CoreThread) (m : Input) : Exec (Option Bool × CoreThread) := do
  b.assert (m.ptr ≠ 0) "ptr != NULL"
  b.assert (t.tmi.sei.p = -1) "sei->p == -1"
  t.ibufPrepare f b k m.ptr m.size m.crc (if m.ro then .readOnly else .readWrite)

/-- `sei_prepare_nm`. -/
def prepareNm (t : CoreThread) : Exec CoreThread := do
  let (_, t) ← t.ibufPrepare f b k 0 0 Crc.init .readOnly
  return t

/-! ## The entry points -/

/-- `__sei_prepare`. -/
def seiPrepare (t : CoreThread) (m : Input) : Exec (Option Bool × CoreThread) := do
  let t ← t.setRedundancy b b.redundancy
  let t ← t.setCoreMigration b false
  t.prepare f b k m

/-- `__sei_prepare_nm`, which has no use for its arguments. -/
def seiPrepareNm (t : CoreThread) (_m : Input) : Exec CoreThread := do
  let t ← t.setRedundancy b b.redundancy
  let t ← t.setCoreMigration b false
  t.clearRanges.prepareNm f b k

/-- `__sei_prepare_n`. -/
def seiPrepareN (t : CoreThread) (m : Input) (redundancyLevel : Nat) :
    Exec (Option Bool × CoreThread) := do
  let t ← t.setRedundancy b redundancyLevel
  t.prepare f b k m

/-- `__sei_prepare_nm_n`. -/
def seiPrepareNmN (t : CoreThread) (redundancyLevel : Nat) : Exec CoreThread := do
  let t ← t.setRedundancy b redundancyLevel
  t.clearRanges.prepareNm f b k

/-- `__sei_prepare_core`. -/
def seiPrepareCore (t : CoreThread) (m : Input) : Exec (Option Bool × CoreThread) := do
  let t ← t.setCoreMigration b true
  let t ← t.setRedundancy b 2
  t.prepare f b k m

/-- `__sei_prepare_nm_core`. -/
def seiPrepareNmCore (t : CoreThread) : Exec CoreThread := do
  let t ← t.setCoreMigration b true
  let t ← t.setRedundancy b 2
  t.clearRanges.prepareNm f b k

/-- A call of one of the six functions. -/
inductive Entry where
  | prepare (m : Input)
  | prepareNm (m : Input)
  | prepareN (m : Input) (redundancyLevel : Nat)
  | prepareNmN (redundancyLevel : Nat)
  | prepareCore (m : Input)
  | prepareNmCore

/-- A call with its result. The functions without a message have none and return at once. -/
def entry (t : CoreThread) : Entry → Exec (Option Bool × CoreThread)
  | .prepare m => t.seiPrepare f b k m
  | .prepareNm m => do
      let t ← t.seiPrepareNm f b k m
      return (some true, t)
  | .prepareN m redundancyLevel => t.seiPrepareN f b k m redundancyLevel
  | .prepareNmN redundancyLevel => do
      let t ← t.seiPrepareNmN f b k redundancyLevel
      return (some true, t)
  | .prepareCore m => t.seiPrepareCore f b k m
  | .prepareNmCore => do
      let t ← t.seiPrepareNmCore f b k
      return (some true, t)

/-! ## The settings -/

/-- The settings a transaction runs with: `redundancy_level` of `sei`, `talloc`, `tbin` and the
current `obuf`, and `core_migration_enabled`. -/
@[ext] structure Configuration where
  sei : Nat
  talloc : Nat
  tbin : Nat
  obuf : Nat
  coreMigrationEnabled : Bool
  deriving DecidableEq, Repr

def configuration (t : CoreThread) : Configuration where
  sei := t.tmi.sei.redundancyLevel
  talloc := t.tmi.sei.talloc.redundancyLevel
  tbin := t.tmi.sei.tbin.redundancyLevel
  obuf := t.tmi.sei.obuf.redundancyLevel
  coreMigrationEnabled := t.coreMigrationEnabled

/-- The same number of phases everywhere. -/
def Configuration.uniform (n : Nat) (enabled : Bool) : Configuration := ⟨n, n, n, n, enabled⟩

/-- The number of phases a call asks for. -/
def Entry.level (b : Build) : Entry → Nat
  | .prepare _ | .prepareNm _ => b.redundancy
  | .prepareN _ redundancyLevel | .prepareNmN redundancyLevel => redundancyLevel
  | .prepareCore _ | .prepareNmCore => 2

/-- What a call sets `core_migration_enabled` to, if it does. -/
def Entry.migration? : Entry → Option Bool
  | .prepare _ | .prepareNm _ => some false
  | .prepareN _ _ | .prepareNmN _ => none
  | .prepareCore _ | .prepareNmCore => some true

section Configuration

variable {f b k} {t t' : CoreThread} {e : Entry}

theorem configuration_setRedundancy {n : Nat} (h : t.setRedundancy b n = .ok t') :
    t'.configuration = .uniform n t.configuration.coreMigrationEnabled := by
  simp only [setRedundancy, Sei.setRedundancy, bind_eq_ok, pure_eq_ok, Except.ok.injEq] at h
  obtain ⟨_, ⟨_, _, _, _, rfl⟩, rfl⟩ := h
  rfl

theorem configuration_setCoreMigration {enable : Bool} (h : t.setCoreMigration b enable = .ok t') :
    t'.configuration = { t.configuration with coreMigrationEnabled := enable } := by
  simp only [setCoreMigration, bind_eq_ok, pure_eq_ok, Except.ok.injEq] at h
  obtain ⟨_, _, rfl⟩ := h
  rfl

/-- Checking the message changes none of the settings. -/
theorem configuration_ibufPrepare {ptr size : Nat} {crc : UInt32} {mode : IbufMode}
    {r : Option Bool} (h : t.ibufPrepare f b k ptr size crc mode = .ok (r, t')) :
    t'.configuration = t.configuration := by
  simp only [ibufPrepare, bind_eq_ok, pure_eq_ok, Except.ok.injEq, Prod.mk.injEq] at h
  obtain ⟨_, _, _, rfl⟩ := h
  rfl

theorem configuration_prepare {m : Input} {r : Option Bool}
    (h : t.prepare f b k m = .ok (r, t')) : t'.configuration = t.configuration := by
  rw [prepare, seq_eq_ok, seq_eq_ok] at h
  exact configuration_ibufPrepare h.2.2

theorem configuration_prepareNm (h : t.clearRanges.prepareNm f b k = .ok t') :
    t'.configuration = t.configuration := by
  rw [prepareNm, bind_eq_ok] at h
  obtain ⟨⟨r, t1⟩, hprepare, ht⟩ := h
  cases ht
  have hsame := configuration_ibufPrepare hprepare
  exact hsame

/-- After a call the number of phases is the one it asks for; whether phases change the core is as
before if the call does not say. -/
theorem configuration_entry {r : Option Bool} (h : t.entry f b k e = .ok (r, t')) :
    t'.configuration = .uniform (e.level b) (e.migration?.getD t.coreMigrationEnabled) := by
  cases e with
  | prepare m =>
    simp only [entry, seiPrepare, bind_eq_ok] at h
    obtain ⟨t1, hset, t2, hmigration, hprepare⟩ := h
    rw [configuration_prepare hprepare, configuration_setCoreMigration hmigration,
      configuration_setRedundancy hset]
    rfl
  | prepareNm m =>
    simp only [entry, seiPrepareNm, bind_eq_ok] at h
    obtain ⟨t3, ⟨t1, hset, t2, hmigration, hprepare⟩, ht⟩ := h
    cases ht
    rw [configuration_prepareNm hprepare, configuration_setCoreMigration hmigration,
      configuration_setRedundancy hset]
    rfl
  | prepareN m n =>
    simp only [entry, seiPrepareN, bind_eq_ok] at h
    obtain ⟨t1, hset, hprepare⟩ := h
    rw [configuration_prepare hprepare, configuration_setRedundancy hset]
    rfl
  | prepareNmN n =>
    simp only [entry, seiPrepareNmN, bind_eq_ok] at h
    obtain ⟨t2, ⟨t1, hset, hprepare⟩, ht⟩ := h
    cases ht
    rw [configuration_prepareNm hprepare, configuration_setRedundancy hset]
    rfl
  | prepareCore m =>
    simp only [entry, seiPrepareCore, bind_eq_ok] at h
    obtain ⟨t1, hmigration, t2, hset, hprepare⟩ := h
    rw [configuration_prepare hprepare, configuration_setRedundancy hset,
      configuration_setCoreMigration hmigration]
    rfl
  | prepareNmCore =>
    simp only [entry, seiPrepareNmCore, bind_eq_ok] at h
    obtain ⟨t3, ⟨t1, hmigration, t2, hset, hprepare⟩, ht⟩ := h
    cases ht
    rw [configuration_prepareNm hprepare, configuration_setRedundancy hset,
      configuration_setCoreMigration hmigration]
    rfl

end Configuration

end CoreThread

end LibSei
