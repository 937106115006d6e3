-- SUMMARY: `ibuf_prepare`: the check of an input message against its checksum, computed redundantly and on several cores.
import LibSei.Cores.Thread

/-!
# Accepting input messages

The checksum of an input message is computed several times, on one core or on two. When the
results differ a core is at fault: without `SEI_CPU_ISOLATION` the process aborts, with it
the cores involved are blacklisted and the check is made again elsewhere. When they agree they
are compared with the checksum that came with the message.
-/

namespace LibSei

open Control

/-- `crc_compute_redundant`, where `results i` is what the call number `i` of `crc_compute`
returns. On a faulty core the results may differ. -/
def Crc.computeRedundant (results : Nat → UInt32) (redundancyCount : Nat) : Option UInt32 :=
  if redundancyCount < 2 ∨ redundancyCount > 10 then none
  else if (List.range' 1 (redundancyCount - 1)).all fun i => results i == results 0 then
    some (results 0)
  else none

/-- The results of `ibuf_correct_on_entry_safe`: 0, 1 and 2. -/
inductive EntryCheck where
  | sdc | corrupted | correct
  deriving DecidableEq, Repr

namespace Ibuf

/-- `ibuf_correct_on_entry`. -/
def correctOnEntry (f : CoreOptions) (i : Ibuf) (results : Nat → UInt32) : Exec Bool :=
  match Crc.computeRedundant results f.crcRedundancy with
  | some crc => return crc = i.crc
  | none => throw (.abort "ERROR: CRC redundancy check failed (redundancy=%d)")

/-- `ibuf_correct_on_entry_safe`, without the migration between its two computations. -/
def correctOnEntrySafe (f : CoreOptions) (i : Ibuf) (results : Nat → UInt32) : EntryCheck :=
  let crcCheck :=
    if f.crcMigrateCores then if results 0 = results 1 then some (results 0) else none
    else Crc.computeRedundant results f.crcRedundancy
  match crcCheck with
  | some crc => if crc ≠ i.crc then .corrupted else .correct
  | none => .sdc

end Ibuf

namespace Cores

/-- The migration of `ibuf_correct_on_entry_safe`. The core has been asked for once before, and
the thread may have been moved in between. -/
def migrateForCheck (f : CoreOptions) (moved : Nat) (c : Cores) : Exec Cores :=
  if f.crcMigrateCores then (c.schedule moved).migrateAway else return c

/-- One round of the loop of `ibuf_prepare`. -/
def checkRound (f : CoreOptions) (i : Ibuf) (results : Nat → UInt32) (moved : Nat) (c : Cores) :
    Exec (EntryCheck × Cores) := do
  let crcPhase0Core := c.core
  let c ← c.migrateForCheck f moved
  match i.correctOnEntrySafe f results with
  | .sdc => do
      let c ← c.recover f.crcMigrateCores crcPhase0Core
      return (.sdc, c)
  | check => return (check, c)

/-- The loop of `ibuf_prepare` for a number of rounds: what it returns, or `none` while it goes
on. `results` and `moved` are given for each round. -/
def checkLoop (f : CoreOptions) (i : Ibuf) (results : Nat → Nat → UInt32) (moved : Nat → Nat) :
    Nat → Cores → Exec (Option Bool × Cores)
  | 0, c => return (none, c)
  | rounds + 1, c => do
      let (check, c) ← c.checkRound f i (results rounds) (moved rounds)
      match check with
      | .correct => return (some true, c)
      | .corrupted => return (some false, c)
      | .sdc => checkLoop f i results moved rounds c

end Cores

/-- `ibuf_prepare`, with the number of rounds its loop is followed for. -/
def Ibuf.prepare (f : CoreOptions) (b : Build) (i : Ibuf) (c : Cores) (ptr size : Nat)
    (crc : UInt32) (mode : IbufMode) (results : Nat → Nat → UInt32) (moved : Nat → Nat)
    (rounds : Nat) : Exec (Option Bool × Ibuf × Cores) := do
  b.assert (i.checked = 0) "ibuf->checked == 0"
  let i := { i with ptr := ptr, size := size, crc := crc, mode := mode }
  if i.ptr = 0 then
    b.assert (i.size = 0) "ibuf->size == 0"
    b.assert (i.crc = Crc.init) "ibuf->crc == crc_init()"
    b.assert (i.mode = .readOnly) "ibuf->mode == READ_ONLY"
    return (some true, i, c)
  if b.cpuIsolation then
    let (r, c) ← c.checkLoop f i results moved rounds
    return (r, i, c)
  let r ← i.correctOnEntry f (results 0)
  return (some r, i, c)

/-! ## Rounds on healthy cores -/

namespace Cores

variable {f : CoreOptions} {i : Ibuf} {results : Nat → UInt32} {moved core : Nat} {c c' : Cores}

theorem Safe.migrateForCheck (h : c.Safe) (hrun : c.migrateForCheck f moved = .ok c') :
    c'.Safe ∧ c'.isolation = c.isolation := by
  rw [Cores.migrateForCheck] at hrun
  split at hrun
  · simpa using h.schedule.migrateAway hrun
  · cases hrun
    exact ⟨h, rfl⟩

/-- A round keeps the thread on healthy cores, and one that finds an error leaves fewer of
them. -/
theorem Safe.checkRound {check : EntryCheck} (h : c.Safe)
    (hrun : c.checkRound f i results moved = .ok (check, c')) :
    After (check == .sdc) c c' := by
  simp only [Cores.checkRound, bind_eq_ok] at hrun
  obtain ⟨c1, hmigrate, hrun⟩ := hrun
  obtain ⟨hsafe, hsame⟩ := h.migrateForCheck hmigrate
  split at hrun
  · simp only [bind_eq_ok, pure_eq_ok, Except.ok.injEq, Prod.mk.injEq] at hrun
    obtain ⟨c2, hrecover, rfl, rfl⟩ := hrun
    obtain ⟨hsafe', hnum, hsub, hfewer⟩ := hsafe.recover hrecover
    rw [hsame] at hnum hsub hfewer
    exact ⟨hsafe', hnum, hsub, hfewer⟩
  · next hne =>
    cases hrun
    rw [beq_eq_false_iff_ne.mpr hne]
    exact .same hsafe hsame

/-- The loop ends: every round that does not end it costs a core. -/
theorem Safe.checkLoop_ne_none {results : Nat → Nat → UInt32} {moved : Nat → Nat} {rounds : Nat}
    {r : Option Bool} (h : c.Safe) (hrounds : c.isolation.healthy.card < rounds)
    (hrun : c.checkLoop f i results moved rounds = .ok (r, c')) : r ≠ none := by
  induction rounds generalizing c with
  | zero => omega
  | succ rounds ih =>
    simp only [Cores.checkLoop, bind_eq_ok] at hrun
    obtain ⟨⟨check, c1⟩, hround, hrun⟩ := hrun
    have hafter := h.checkRound hround
    cases check with
    | correct =>
      cases hrun
      exact Option.some_ne_none _
    | corrupted =>
      cases hrun
      exact Option.some_ne_none _
    | sdc =>
      have hcard : c1.isolation.healthy.card + 1 ≤ c.isolation.healthy.card := hafter.card_le
      exact ih hafter.safe (by omega) hrun

end Cores

/-! ## Messages that are accepted -/

section Accepted

variable {f : CoreOptions} {i : Ibuf} {results : Nat → UInt32} {c : Cores}

/-- Without a fault all computations give the same result. -/
theorem Crc.computeRedundant_of_eq {count : Nat} {crc : UInt32} (htwo : 2 ≤ count)
    (hten : count ≤ 10) (hsame : ∀ j, results j = crc) :
    Crc.computeRedundant results count = some crc := by
  rw [Crc.computeRedundant, if_neg (by omega), if_pos, hsame]
  simp [hsame]

theorem Ibuf.correctOnEntry_of_eq (hsame : ∀ j, results j = i.crc) :
    i.correctOnEntry f results = .ok true := by
  rw [Ibuf.correctOnEntry, Crc.computeRedundant_of_eq f.two_le f.le_ten hsame]
  simp [pure, Except.pure]

theorem Ibuf.correctOnEntrySafe_of_eq (hsame : ∀ j, results j = i.crc) :
    i.correctOnEntrySafe f results = .correct := by
  simp [Ibuf.correctOnEntrySafe, Crc.computeRedundant_of_eq f.two_le f.le_ten hsame, hsame]

/-- There is a second core for the check, if it uses two. -/
def Cores.Enough (f : CoreOptions) (c : Cores) : Prop :=
  f.crcMigrateCores = true → c.isolation.Valid ∧ 2 ≤ c.isolation.healthy.card

/-- A message whose checksum is computed as announced is accepted in the first round. -/
theorem Cores.checkRound_of_eq (hcores : c.Enough f) (hsame : ∀ j, results j = i.crc) (moved : Nat) :
    ∃ c', c.checkRound f i results moved = .ok (.correct, c') := by
  obtain ⟨c1, hmigrate⟩ : ∃ c1, c.migrateForCheck f moved = .ok c1 := by
    rw [Cores.migrateForCheck]
    split
    · next hcross =>
      obtain ⟨hvalid, htwo⟩ := hcores hcross
      obtain ⟨new, hnew, -⟩ := hvalid.exists_migrateExcludingCore htwo (c.schedule moved).core
      exact ⟨_, by rw [Cores.migrateAway, Cores.schedule_isolation, hnew, ok_bind]; rfl⟩
    · exact ⟨c, rfl⟩
  exact ⟨c1, by rw [Cores.checkRound, hmigrate, ok_bind, Ibuf.correctOnEntrySafe_of_eq hsame]; rfl⟩

/-- `ibuf_prepare` accepts a message whose checksum is computed as announced. -/
theorem Ibuf.prepare_of_eq {b : Build} {ptr size rounds : Nat} {crc : UInt32} {mode : IbufMode}
    {results : Nat → Nat → UInt32} {moved : Nat → Nat} (hchecked : b.ndebug = true ∨ i.checked = 0)
    (hptr : ptr ≠ 0) (hcores : c.Enough f) (hsame : ∀ n j, results n j = crc) :
    ∃ i' c', i.prepare f b c ptr size crc mode results moved (rounds + 1) =
      .ok (some true, i', c') := by
  rw [Ibuf.prepare, Build.assert_of_or hchecked, ok_bind]
  simp only [if_neg hptr]
  split
  · obtain ⟨c', hround⟩ := Cores.checkRound_of_eq (f := f)
      (i := { i with ptr := ptr, size := size, crc := crc, mode := mode }) hcores (hsame rounds)
      (moved rounds)
    exact ⟨_, c', by rw [Cores.checkLoop, hround]; rfl⟩
  · exact ⟨_, c, by rw [Ibuf.correctOnEntry_of_eq (hsame 0)]; rfl⟩

end Accepted

end LibSei
