-- SUMMARY: Fault injection: which injected faults `sei_try_commit` detects, and what the rollback after a detected one leaves in memory.
import LibSei.Abuf.Corrupt
import LibSei.Properties.Transparency

/-!
# Injected faults

To test recovery, `sei_try_commit` can be made to corrupt the log of phase 0 right before the
comparison, once in a process. The results here follow a transaction of a hardened process in
which this happens. Whether the fault is seen depends on where the corrupted bits lie and on the
other writes of the handler. A fault that is not seen does no harm; one that is seen is written
to memory by the rollback.
-/

namespace LibSei

open Memory Control

/-! ## The state of fault injection -/

/-- The environment variables of fault injection, as `atoi` and `atol` read them. -/
structure FaultSettings where
  injectAfterTxn : Option Int
  injectDelayMs : Option Int
  type : Option Int

/-- The static variables of fault injection. -/
structure Faults where
  delayUs : Nat
  injected : Bool
  startUs : Nat
  transactionCount : Int
  afterTxn : Int
  type : Int

namespace Faults

/-- A process before `fault_init`. -/
def zero : Faults := ⟨0, false, 0, 0, 0, -1⟩

/-- `fault_init` at the time `now`. -/
def init (settings : FaultSettings) (now : Nat) (f : Faults) : Faults :=
  if f.startUs ≠ 0 then f else
    { f with
      startUs := now
      delayUs := match settings.injectDelayMs with
        | some ms => (ms * 1000 % 2 ^ 64).toNat
        | none => f.delayUs }

/-- `fault_should_inject` at the time `now`. -/
def shouldInject (settings : FaultSettings) (now : Nat) (f : Faults) : Bool × Faults :=
  if f.injected then (false, f) else
    let f := if f.afterTxn = 0 then
        let n := settings.injectAfterTxn.getD f.afterTxn
        { f with afterTxn := if n = 0 then -1 else n }
      else f
    if 0 < f.afterTxn ∧ f.afterTxn ≤ f.transactionCount then (true, f)
    else if 0 < f.delayUs then (decide (f.delayUs ≤ (now + 2 ^ 64 - f.startUs) % 2 ^ 64), f)
    else (false, f)

/-- `fault_count_transaction`. -/
def countTransaction (f : Faults) : Faults :=
  { f with transactionCount := f.transactionCount + 1 }

/-- `fault_get_type`. -/
def getType (settings : FaultSettings) (f : Faults) : Int × Faults :=
  let type := if f.type < 0 then settings.type.getD 0 else f.type
  (type, { f with type := type })

/-- The corruption of one type. -/
def corrupt (rand : Nat) (type : Int) (a : Abuf) : Abuf :=
  match type with
  | 1 => a.corruptRandom rand
  | 2 => a.corruptLast
  | 3 => a.corruptMultiple
  | _ => a.corruptFirst

/-- `fault_inject_abuf`. -/
def injectAbuf (settings : FaultSettings) (now rand : Nat) (a : Abuf) (f : Faults) :
    Faults × Abuf :=
  let (inject, f) := f.shouldInject settings now
  if inject = false then (f, a) else
  if a.size = 0 then (f, a) else
  let (type, f) := f.getType settings
  if type = 5 then (f, a) else ({ f with injected := true }, corrupt rand type a)

end Faults

/-- `sei_try_commit` with fault injection. The fault comes between the rewinding of the logs and
the comparison. -/
def World.tryCommitInjecting (env : Env) (b : Build) (settings : FaultSettings) (now rand : Nat)
    (f : Faults) (w : World) : Exec (Bool × Faults × World) := do
  let n := w.sei.redundancyLevel
  b.assert (w.sei.p = n - 1) "must be in final phase before commit"
  let f := f.countTransaction
  let cow := World.rewindAll n w.sei.cow
  let (f, a) := f.injectAbuf settings now rand (cow 0)
  -- the assertion and the rewinding once more change nothing
  let (r, w) ← World.tryCommit env b
    { w with sei := { w.sei with cow := Function.update cow 0 a } }
  return (r, f, w)

/-! ## Where a fault lies -/

namespace Faults

/-- The bits that a corruption flips in entry `i` of a log of `pushed` entries. -/
def mask (rand : Nat) (type : Int) (pushed i : Nat) : Nat :=
  match type with
  | 1 => if i = rand % pushed then 0xDEADBEEF else 0
  | 2 => if i = pushed - 1 then 0xFF else 0
  | 3 => if 2 ≤ pushed ∧ i < 6 ∧ i % 2 = 0 ∧ i < pushed then 1 <<< (i / 2) else 0
  | _ => if i = 0 then 1 else 0

/-- A corruption changes the value of write `i` of a log: it touches the entry, and the bits it
flips lie in the slot of the write. -/
def Hits (rand : Nat) (type : Int) (ws : List Write) (i : Nat) (hi : i < ws.length) : Prop :=
  match type with
  | 1 => i = rand % ws.length ∧ slotOf ws[i] < 4
  | 2 => i = ws.length - 1 ∧ slotOf ws[i] = 0
  | 3 => 2 ≤ ws.length ∧ i < 6 ∧ i % 2 = 0 ∧ slotOf ws[i] = 0
  | _ => i = 0 ∧ slotOf ws[i] = 0

section Mask

variable {a : Abuf} {ws : List Write} {rand i : Nat} {type : Int}

theorem mask_first (h1 : type ≠ 1) (h2 : type ≠ 2) (h3 : type ≠ 3) (pushed : Nat) :
    mask rand type pushed i = if i = 0 then 1 else 0 := by
  unfold mask
  split
  · exact absurd rfl h1
  · exact absurd rfl h2
  · exact absurd rfl h3
  · rfl

theorem corrupt_eq_flip (h : a.pushed ≠ 0) : corrupt rand type a = a.flip (mask rand type a.pushed) := by
  unfold corrupt
  split
  · rw [Abuf.corruptRandom, if_neg h, Abuf.corruptEntry_eq_flip]
    rfl
  · rw [Abuf.corruptLast, if_neg h, Abuf.corruptEntry_eq_flip]
    rfl
  · rw [Abuf.corruptMultiple]
    split
    · next hfew => exact (Abuf.flip_of_zero fun i => if_neg (by omega)).symm
    · next htwo =>
      rw [Abuf.corruptLoop_eq_flip]
      congr 1
      funext i
      refine if_ctx_congr (by omega) (fun _ => ?_) fun _ => rfl
      rw [Nat.zero_add, Nat.sub_zero]
  · next h1 h2 h3 =>
    rw [Abuf.corruptFirst, if_neg h, Abuf.corruptEntry_eq_flip]
    congr 1
    funext i
    exact (mask_first h1 h2 h3 _).symm

/-- Bits of the lowest byte are read only from the first slot. -/
theorem reaches_lowByte {x : Nat} {w : Write} (hx : x ≠ 0) (hlow : x < 256) (hsize : 0 < w.size) :
    Reaches x w ↔ slotOf w = 0 := by
  have hbyte : ∀ k, leByte x k ≠ 0 ↔ k = 0 := by
    intro k
    rw [Ne, ← UInt8.toNat_inj, leByte_toNat, UInt8.toNat_zero]
    rcases Nat.eq_zero_or_pos k with rfl | hk
    · rw [pow_zero, Nat.div_one, Nat.mod_eq_of_lt hlow]
      simp only [hx, not_false_eq_true]
    · have hpow : x < 256 ^ k := Nat.lt_of_lt_of_le hlow (Nat.le_self_pow (by omega) 256)
      rw [Nat.div_eq_of_lt hpow]
      simp only [Nat.zero_mod, not_true_eq_false, false_iff]
      omega
  constructor
  · rintro ⟨k, _, hk⟩
    have := (hbyte _).mp hk
    omega
  · exact fun h => ⟨0, hsize, (hbyte _).mpr (by omega)⟩

/-- The bits of `0xDEADBEEF` are read from the slots of the lower half of the word. -/
theorem reaches_deadbeef {w : Write} (hsize : 0 < w.size) : Reaches 0xDEADBEEF w ↔ slotOf w < 4 := by
  have hbyte : ∀ k, leByte 0xDEADBEEF k ≠ 0 ↔ k < 4 := by
    intro k
    rcases Nat.lt_or_ge k 4 with hk | hk
    · simp only [hk, iff_true]
      interval_cases k <;> decide
    · have hpow : 0xDEADBEEF < 256 ^ k :=
        Nat.lt_of_lt_of_le (by decide : 0xDEADBEEF < 256 ^ 4) (Nat.pow_le_pow_right (by decide) hk)
      simp only [leByte, Nat.div_eq_of_lt hpow, Nat.not_lt.mpr hk, iff_false, not_not]
      rfl
  constructor
  · rintro ⟨k, _, hk⟩
    have := (hbyte _).mp hk
    omega
  · exact fun h => ⟨0, hsize, (hbyte _).mpr (by omega)⟩

theorem not_reaches_zero {w : Write} : ¬ Reaches 0 w := by
  rintro ⟨k, _, hk⟩
  exact hk (by simp [leByte])

theorem reaches_ite {c : Prop} [Decidable c] {x : Nat} {w : Write} :
    Reaches (if c then x else 0) w ↔ c ∧ Reaches x w := by
  split
  · next hc => exact (and_iff_right hc).symm
  · next hc => exact iff_of_false not_reaches_zero fun h => hc h.1

/-- The values that a corruption changes. -/
theorem hits_iff (hsized : Abuf.Sized ws) (hi : i < ws.length) :
    Hits rand type ws i hi ↔ Reaches (mask rand type ws.length i) ws[i] := by
  have hsize : 0 < ws[i].size := by
    obtain ⟨t, ht⟩ := Option.isSome_iff_exists.mp (hsized _ (List.getElem_mem hi))
    rw [← UIntTy.sizeof_of_ofSize? ht]
    cases t <;> decide
  unfold Hits
  split
  · show _ ↔ Reaches (if _ then _ else 0) _
    rw [reaches_ite, reaches_deadbeef hsize]
  · show _ ↔ Reaches (if _ then _ else 0) _
    rw [reaches_ite, reaches_lowByte (by decide) (by decide) hsize]
  · show _ ↔ Reaches (if _ then _ else 0) _
    rw [reaches_ite]
    constructor
    · rintro ⟨htwo, hsix, heven, hslot⟩
      have hbit : 1 <<< (i / 2) < 256 := by interval_cases i <;> decide
      exact ⟨⟨htwo, hsix, heven, hi⟩,
        (reaches_lowByte (by simp [Nat.shiftLeft_eq]) hbit hsize).mpr hslot⟩
    · rintro ⟨⟨htwo, hsix, heven, _⟩, hreaches⟩
      have hbit : 1 <<< (i / 2) < 256 := by interval_cases i <;> decide
      exact ⟨htwo, hsix, heven, (reaches_lowByte (by simp [Nat.shiftLeft_eq]) hbit hsize).mp hreaches⟩
  · next h1 h2 h3 =>
    rw [mask_first h1 h2 h3, reaches_ite, reaches_lowByte (by decide) (by decide) hsize]

end Mask

/-! ## The injection -/

section Inject

variable {settings : FaultSettings} {now rand : Nat} {f : Faults} {a : Abuf}

/-- A fault is put into a log now, if it has entries. -/
def Injects (settings : FaultSettings) (now : Nat) (f : Faults) : Prop :=
  (f.shouldInject settings now).1 = true ∧ (f.getType settings).1 ≠ 5

instance : Decidable (f.Injects settings now) := inferInstanceAs (Decidable (_ ∧ _))

/-- The bits that are flipped in a log, if a fault is injected now. -/
def strike (settings : FaultSettings) (now rand : Nat) (f : Faults) (pushed i : Nat) : Nat :=
  if f.Injects settings now ∧ pushed ≠ 0 then mask rand (f.getType settings).1 pushed i else 0

/-- The writes whose values a fault changes. -/
theorem reaches_strike {ws : List Write} {i : Nat} (hsized : Abuf.Sized ws) (hi : i < ws.length) :
    Reaches (f.strike settings now rand ws.length i) ws[i] ↔
      f.Injects settings now ∧ Hits rand (f.getType settings).1 ws i hi := by
  have hlength : ws.length ≠ 0 := by omega
  rw [strike, reaches_ite, hits_iff hsized, and_assoc]
  exact and_congr_right fun _ => and_iff_right hlength

/-- The decision to inject does not touch the type. -/
theorem getType_shouldInject :
    ((f.shouldInject settings now).2.getType settings).1 = (f.getType settings).1 := by
  have htype : (f.shouldInject settings now).2.type = f.type := by
    unfold shouldInject
    split
    · rfl
    · by_cases hzero : f.afterTxn = 0 <;> simp only [hzero, if_true, if_false] <;> split_ifs <;> rfl
  show (if _ then _ else (f.shouldInject settings now).2.type) = _
  rw [htype]
  rfl

theorem injectAbuf_eq : f.injectAbuf settings now rand a =
    if (f.shouldInject settings now).1 = false then ((f.shouldInject settings now).2, a) else
    if a.size = 0 then ((f.shouldInject settings now).2, a) else
    if ((f.shouldInject settings now).2.getType settings).1 = 5 then
      (((f.shouldInject settings now).2.getType settings).2, a)
    else
      ({ ((f.shouldInject settings now).2.getType settings).2 with injected := true },
        corrupt rand ((f.shouldInject settings now).2.getType settings).1 a) := rfl

theorem injectAbuf_snd (h : a.poped = 0) :
    (f.injectAbuf settings now rand a).2 = a.flip (f.strike settings now rand a.pushed) := by
  have hsize : a.size = 0 ↔ a.pushed = 0 := by
    rw [Abuf.size, h]
    omega
  have hzero : ¬ (f.Injects settings now ∧ a.pushed ≠ 0) →
      a.flip (f.strike settings now rand a.pushed) = a :=
    fun hnone => Abuf.flip_of_zero fun i => if_neg hnone
  rw [injectAbuf_eq, getType_shouldInject]
  split
  · next hinject => exact (hzero fun h => by simp [h.1.1] at hinject).symm
  next hinject =>
  split
  · next hempty => exact (hzero fun h => h.2 (hsize.mp hempty)).symm
  next hsome =>
  split
  · next hsegv => exact (hzero fun h => h.1.2 hsegv).symm
  next hother =>
  have hpushed : a.pushed ≠ 0 := fun h => hsome (hsize.mpr h)
  have hstrike : f.strike settings now rand a.pushed = mask rand (f.getType settings).1 a.pushed :=
    funext fun i => if_pos ⟨⟨by simpa using hinject, hother⟩, hpushed⟩
  rw [hstrike]
  exact corrupt_eq_flip hpushed

end Inject

end Faults

/-! ## A transaction with an injected fault -/

/-- A write of a handler that uses one width for each location is unmatched after a flip exactly
when the flip reaches its value, unless another write has its address. -/
theorem excused_flipWrites_iff {ws : List Write} {mem : Mem} {mask : Nat → Nat} (hwidth : OneWidth ws) :
    Excused Duplicated (runWrites ws mem) (flipWrites mask ws) ↔
      ∀ i (hi : i < ws.length), Reaches (mask i) ws[i] → Duplicated ws i := by
  have hlater : ∀ i (hi : i < ws.length), Mismatch (runWrites ws mem) ws[i] → Duplicated ws i := by
    intro i hi hmis
    obtain ⟨j, hj, hij, hshape⟩ := hwidth.exists_later hi hmis
    exact ⟨j, hi, hj, by omega, congrArg Prod.fst hshape⟩
  constructor
  · intro hexcused i hi hreaches
    by_contra hsingle
    have hshown : load (runWrites ws mem) ws[i].addr ws[i].size = ws[i].val := by
      by_contra hmis
      exact hsingle (hlater i hi hmis)
    refine hsingle (duplicated_flipWrites.mp (hexcused i (by rwa [length_flipWrites]) ?_))
    rw [getElem_flipWrites hi]
    intro hval
    exact (mt flipWrite_val_eq_iff.mp (not_not.mpr hreaches)) (hval.symm.trans hshown)
  · intro hdup i hi hmis
    have hi' : i < ws.length := by rwa [length_flipWrites] at hi
    rw [getElem_flipWrites hi'] at hmis
    refine duplicated_flipWrites.mpr ?_
    by_cases hreaches : Reaches (mask i) ws[i]
    · exact hdup i hi' hreaches
    · refine hlater i hi' fun hval => hmis ?_
      rw [flipWrite_val_eq_iff.mpr hreaches]
      exact hval

namespace World

/-- The handler has run in all phases of a transaction that began in `w`. -/
def AtCommit (env : Env) (b : Build) (h : AllocHandler) (w w' : World) : Prop :=
  ∃ w1, phaseStart env b (fun _ => allocBody env b h) w (w.sei.redundancyLevel - 1) = .ok w1 ∧
    allocBody env b h w1 = .ok w'

/-- Recovery of a transaction without allocations replays the log of phase 0. -/
theorem recover_of_noAlloc {env : Env} {b : Build} {w : World} {ws : List Write}
    (hsize : w.sei.talloc.size 0 = 0) (hholds : (w.sei.cow 0).Holds ws) (hsized : Abuf.Sized ws) :
    ∃ w', w.recover env b = .ok w' ∧ w'.machine = { w.machine with mem := runWrites ws w.mem } := by
  have hrange : ∀ a, w.sei.talloc.addrInRange a = false := by
    intro a
    rw [Talloc.addrInRange, hsize]
    rfl
  have hfiltered : ∀ mem, runWrites (Abuf.filteredWrites w.sei.talloc.addrInRange ws mem) mem =
      runWrites ws mem := by
    intro mem
    rw [Abuf.runWrites_filteredWrites, runWrites]
    congr 1
    funext m x
    rw [Abuf.filteredWrite, if_neg (by simp [hrange])]
    split
    · next hpoints => exact absurd hpoints (by simp [Abuf.PointsInto, hrange])
    · rfl
  rw [recover, rollback, Abuf.restoreFiltered_spec b hholds hsized, ok_bind]
  refine ⟨_, rfl, ?_⟩
  show (Talloc.freeAllocations env (w.sei.talloc.size 0) 0 _ _).2 = _
  rw [hsize]
  exact Machine.ext (hfiltered w.mem) rfl rfl

section Injected

variable {env : Env} {b : Build} {w0 w : World} {h : AllocHandler} {n : Nat}
  {settings : FaultSettings} {now rand : Nat} {f : Faults}

theorem Waiting.finalPhase_of_atCommit (hw : w0.Waiting b)
    (hadmissible : h.Admissible env b w0.sei.redundancyLevel w0.machine)
    (hend : AtCommit env b h w0 w) :
    World.finalPhase env b (fun _ => h.calls env w0) w0 = .ok w := by
  have hn := hw.ready.two_le
  have hfits := hw.fits hadmissible
  obtain ⟨w1, hstart⟩ := hw.ready.exists_phase hw.clean.tbin hfits
    (k := w0.sei.redundancyLevel - 1) (by omega)
  obtain ⟨w2, hrun, hcalls⟩ := hw.ready.run_accesses hw.clean.tbin hfits (by omega) hstart
  obtain ⟨w1', hstart', hbody⟩ := hend
  rw [hw.ready.allocStart hw.clean.tbin hfits (by omega), hstart] at hstart'
  cases hstart'
  rw [allocBody, hrun] at hbody
  cases hbody
  rw [World.finalPhase, World.inPhase, hstart, ok_bind, hcalls]

/-- The logs that the comparison sees. -/
def struckLogs (settings : FaultSettings) (now rand : Nat) (f : Faults) (w : World) : Nat → Abuf :=
  Function.update (rewindAll w.sei.redundancyLevel w.sei.cow) 0
    (f.injectAbuf settings now rand (rewindAll w.sei.redundancyLevel w.sei.cow 0)).2

theorem tryCommitInjecting_eq (hp : w.sei.p = w.sei.redundancyLevel - 1) :
    w.tryCommitInjecting env b settings now rand f = do
      let (r, w') ← tryCommit env b
        { w with sei := { w.sei with cow := struckLogs settings now rand f.countTransaction w } }
      return (r, (f.countTransaction.injectAbuf settings now rand
        (rewindAll w.sei.redundancyLevel w.sei.cow 0)).1, w') := by
  rw [tryCommitInjecting, Build.assert_of hp, ok_bind]
  rfl

/-- The logs at the end of equal phases, with the fault in that of phase 0. -/
theorem finalLogs_struckLogs (settings : FaultSettings) (now rand : Nat) (f : Faults)
    {ws : List Write} (hlogs : FinalLogs w0 n (fun _ => ws) w) (hn : 2 ≤ n) (hlevel : w.sei.redundancyLevel = n) :
    FinalLogs w0 n (fun p => if p = 0 then flipWrites (f.strike settings now rand ws.length) ws else ws)
      { w with sei := { w.sei with cow := struckLogs settings now rand f w } } := by
  have hrewind : rewindAll w.sei.redundancyLevel w.sei.cow = w.sei.cow := by
    rw [hlevel]
    exact hlogs.rewindAll_eq
  have hzero : struckLogs settings now rand f w 0 =
      (w.sei.cow 0).flip (f.strike settings now rand ws.length) := by
    rw [struckLogs, Function.update_self, hrewind, Faults.injectAbuf_snd (hlogs.poped 0 (by omega)),
      hlogs.holds.pushed]
  have hother : ∀ p, p ≠ 0 → struckLogs settings now rand f w p = w.sei.cow p := by
    intro p hp
    rw [struckLogs, Function.update_of_ne hp, hrewind]
  have hholds : (struckLogs settings now rand f w 0).Holds
      (flipWrites (f.strike settings now rand ws.length) ws) := by
    rw [hzero]
    exact hlogs.holds.flip (hlogs.sized 0)
  refine ⟨?_, ?_, fun p hp => ?_, fun p hp => ?_, fun p => ?_⟩
  · rw [if_neg (by omega)]
    exact hlogs.mem
  · rw [if_pos rfl]
    exact hholds
  · split
    · next hp0 => exact hp0 ▸ hholds.shaped
    · next hp0 =>
      show (struckLogs settings now rand f w p).Shaped ws
      rw [hother p hp0]
      exact hlogs.shaped p hp
  · show (struckLogs settings now rand f w p).poped = 0
    by_cases hp0 : p = 0
    · rw [hp0, hzero]
      exact hlogs.poped 0 (by omega)
    · rw [hother p hp0]
      exact hlogs.poped p hp
  · split
    · exact (hlogs.sized 0).flipWrites
    · exact hlogs.sized 0

/-- The answer of the pre-check with fault injection at the end of equal phases. -/
theorem Waiting.tryCommitInjecting (settings : FaultSettings) (now rand : Nat) (f : Faults)
    (hw : w0.Waiting b)
    (hadmissible : h.Admissible env b w0.sei.redundancyLevel w0.machine)
    (hrun : World.finalPhase env b (fun _ => h.calls env w0) w0 = .ok w) :
    ∃ r f' w', w.tryCommitInjecting env b settings now rand f = .ok (r, f', w') ∧
      tryCommit env b { w with sei := { w.sei with
        cow := struckLogs settings now rand f.countTransaction w } } = .ok (r, w') ∧
      (r = true ↔
        mismatches w.mem (flipWrites (f.countTransaction.strike settings now rand
          (writesOf (h.calls env w0)).length) (writesOf (h.calls env w0))) ≤ abufMaxConflicts ∧
        ∀ i (hi : i < (writesOf (h.calls env w0)).length),
          Reaches (f.countTransaction.strike settings now rand (writesOf (h.calls env w0)).length i)
            (writesOf (h.calls env w0))[i] → Duplicated (writesOf (h.calls env w0)) i) := by
  have hn := hw.ready.two_le
  have hlogs := hw.finalLogs hrun
  have hlevel : w.sei.redundancyLevel = w0.sei.redundancyLevel := by
    rw [World.finalPhase] at hrun
    exact (hw.ready.inPhase (by omega) hrun).level
  have hcommittable := hw.committable hadmissible hrun
  have hstruck := finalLogs_struckLogs settings now rand f.countTransaction hlogs hn hlevel
  have hshape : SameLocations w0.sei.redundancyLevel fun p => if p = 0 then
      flipWrites (f.countTransaction.strike settings now rand (writesOf (h.calls env w0)).length)
        (writesOf (h.calls env w0)) else writesOf (h.calls env w0) := by
    intro p hp _
    beta_reduce
    rw [if_neg (by omega), if_pos rfl, shapes_flipWrites]
  obtain ⟨r, cow, hcompare, hr⟩ := hstruck.tryCompare_answers hn hw.ready.le hshape
    (hadmissible.compared.imp_right (Or.imp_right And.right))
  rw [← hlevel] at hcompare
  obtain ⟨w', htry⟩ := hcommittable.tryCommit_of_compare hcompare
  have hinject : w.tryCommitInjecting env b settings now rand f = _ :=
    tryCommitInjecting_eq hcommittable.last
  rw [htry, ok_bind] at hinject
  refine ⟨r, _, w', hinject, htry, ?_⟩
  rw [hr, if_pos rfl]
  refine and_congr_right fun _ => ?_
  have hmem : w.mem = runWrites (writesOf (h.calls env w0)) w0.mem := (hw.equalPhases hrun).mem
  show Excused Duplicated w.mem _ ↔ _
  rw [hmem]
  exact excused_flipWrites_iff hadmissible.width

/-- The pre-check sees an injected fault exactly when the fault changes the value of a write whose
address no other write of the handler has, or when more than 8000 writes differ from memory. A
fault that it does not see is without effect: the transaction commits, and leaves what the handler
leaves in a process without the library. -/
theorem injectedFault_detected_iff {mem : Mem} {steps : List PlainStep}
    (hiso : b.cpuIsolation = true) (hrun : Hardened env b (World.init b mem) steps w0)
    (hadmissible : h.Admissible env b w0.sei.redundancyLevel w0.machine)
    (hend : AtCommit env b h w0 w) (settings : FaultSettings) (now rand : Nat) (f : Faults) :
    ∃ r f' w', w.tryCommitInjecting env b settings now rand f = .ok (r, f', w') ∧
      (r = false ↔
        abufMaxConflicts < mismatches w.mem (flipWrites (f.countTransaction.strike settings now rand
          (writesOf (h.operations env w0.machine)).length) (writesOf (h.operations env w0.machine))) ∨
        f.countTransaction.Injects settings now ∧
          ∃ i, ∃ hi : i < (writesOf (h.operations env w0.machine)).length,
            Faults.Hits rand (f.getType settings).1 (writesOf (h.operations env w0.machine)) i hi ∧
            ¬ Duplicated (writesOf (h.operations env w0.machine)) i) ∧
      (r = true → ∃ w'', w'.commit env b = .ok w'' ∧ w''.machine = h.outcome env w0.machine) := by
  have hw := hrun.refines.1
  have hn := hw.ready.two_le
  have hfinal := hw.finalPhase_of_atCommit hadmissible hend
  obtain ⟨r, f', w', hinject, htry, hr⟩ := hw.tryCommitInjecting settings now rand f hadmissible hfinal
  refine ⟨r, f', w', hinject, ?_, fun haccepted => ?_⟩
  · rw [← Bool.not_eq_true, hr, not_and_or, not_le]
    refine or_congr_right ?_
    push Not
    constructor
    · rintro ⟨i, hi, hreaches, hsingle⟩
      obtain ⟨hinjects, hhits⟩ := (Faults.reaches_strike (sized_writesOf _) hi).mp hreaches
      exact ⟨hinjects, i, hi, hhits, hsingle⟩
    · rintro ⟨hinjects, i, hi, hhits, hsingle⟩
      exact ⟨i, hi, (Faults.reaches_strike (sized_writesOf _) hi).mpr ⟨hinjects, hhits⟩, hsingle⟩
  · subst haccepted
    have hcommittable := hw.committable hadmissible hfinal
    obtain ⟨w'', hcommit⟩ := hcommittable.commit_of_tryCommit hiso htry
    have hequal : EqualPhases env b h w0 { w with sei := { w.sei with
        cow := struckLogs settings now rand f.countTransaction w } } := { hw.equalPhases hfinal with }
    exact ⟨w'', hcommit, hequal.committed (by omega) (.inr ⟨hiso, w', htry, hcommit⟩)⟩

/-- The rollback after a fault that was seen writes the corrupted values to memory. From there the
handler is run once more and committed. -/
theorem injectedFault_retried {mem : Mem} {steps : List PlainStep} {w' : World} {f' : Faults}
    (hrun : Hardened env b (World.init b mem) steps w0)
    (hadmissible : h.Admissible env b w0.sei.redundancyLevel w0.machine)
    (hend : AtCommit env b h w0 w) (hrequests : requests (h.operations env w0.machine) = [])
    (hseen : w.tryCommitInjecting env b settings now rand f = .ok (false, f', w')) :
    ∃ w'', w'.recover env b = .ok w'' ∧
      w''.machine = { w0.machine with
        mem := runWrites (flipWrites (f.countTransaction.strike settings now rand
          (writesOf (h.operations env w0.machine)).length) (writesOf (h.operations env w0.machine)))
          w0.mem } ∧
      (h.Admissible env b w0.sei.redundancyLevel w''.machine →
        ∃ w3, Transacts env b h w'' w3 ∧ w3.machine = h.outcome env w''.machine) := by
  have hw := hrun.refines.1
  have hn := hw.ready.two_le
  have hfinal := hw.finalPhase_of_atCommit hadmissible hend
  obtain ⟨r, f1, w1, hinject, htry, _⟩ := hw.tryCommitInjecting settings now rand f hadmissible hfinal
  rw [hseen] at hinject
  cases hinject
  have hin : World.inPhase env b (fun _ => h.calls env w0) w0 (w0.sei.redundancyLevel - 1)
      (h.calls env w0) = .ok w := hfinal
  have hlevel : w.sei.redundancyLevel = w0.sei.redundancyLevel :=
    (hw.ready.inPhase (by omega) hin).level
  have hlogs := finalLogs_struckLogs settings now rand f.countTransaction (hw.finalLogs hfinal) hn hlevel
  have hsize : w.sei.talloc.size 0 = 0 := by
    rw [(hw.ready.allocates (by omega) hin).size 0 (by omega), upTo_of_le (by omega)]
    exact congrArg List.length hrequests
  -- a pre-check that fails at the comparison leaves the logs as it found them
  obtain ⟨cf, hw', _⟩ := tryCommit_spec htry
  have hrewind : rewindAll w.sei.redundancyLevel (struckLogs settings now rand f.countTransaction w) =
      struckLogs settings now rand f.countTransaction w := by
    rw [hlevel]
    exact hlogs.rewindAll_eq
  rw [hrewind] at hw'
  subst hw'
  obtain ⟨w'', hrecover, hmachine⟩ := recover_of_noAlloc (w := { w with sei := { w.sei with
      cow := struckLogs settings now rand f.countTransaction w, cf := cf } })
    hsize hlogs.holds (sized_writesOf _).flipWrites
  have hequal := hw.equalPhases hfinal
  have hready : w''.Waiting b := by
    refine hw.recovered (by omega) hin (fun j hj => ?_) (fun p hp _ => hequal.deferred p hp) hrecover
    rw [struckLogs, Function.update_of_ne (by omega), rewindAll, if_neg (by omega)]
  have hlevel' : w''.sei.redundancyLevel = w0.sei.redundancyLevel := by
    have hfrom : RecoversFrom env b { w with sei := { w.sei with
        cow := struckLogs settings now rand f.countTransaction w, cf := cf } } _ := .inl rfl
    obtain ⟨hended, _⟩ := hfrom.ended (by rw [hlevel]; omega) hrecover
    exact hended.level.trans hlevel
  refine ⟨w'', hrecover, ?_, fun hagain => ?_⟩
  · rw [hmachine]
    refine Machine.ext ?_ ?_ hequal.trace
    · show runWrites _ w.mem = _
      rw [hequal.mem]
      exact runWrites_runWrites_of_shapes shapes_flipWrites
    · show w.machine.nalloc = _
      rw [hequal.nalloc]
      exact congrArg (w0.machine.nalloc + List.length ·) hrequests
  · rw [← hlevel'] at hagain
    obtain ⟨w2, hfinal2, hiff⟩ := hready.ready.exists_finalPhase hready.clean.tbin (hready.fits hagain)
    obtain ⟨w3, hcommit⟩ := (hready.committable hagain hfinal2).exists_committed
    have hn' := hready.ready.two_le
    exact ⟨w3, (hiff w3).mpr hcommit, (hready.equalPhases hfinal2).committed (by omega) hcommit⟩

end Injected

/-- Increments the counter at address 64. -/
def incrementCounter : AllocHandler :=
  .read .uint64 64 fun v => .write .uint64 64 (v + 1) .done

theorem admissible_incrementCounter (mem : Mem) :
    incrementCounter.Admissible Env.plain (Build.twoWay false true) 2 ⟨mem, 0, []⟩ where
  compared := .inr (.inl rfl)
  fits := by
    have hblocks : incrementCounter.blocks Env.plain
        ⟨Sei.init (Build.twoWay false true), ⟨mem, 0, []⟩⟩ = [] := rfl
    have hfrees : incrementCounter.frees Env.plain
        ⟨Sei.init (Build.twoWay false true), ⟨mem, 0, []⟩⟩ = [] := rfl
    have hroom : (Sei.init (Build.twoWay false true)).tbin.maxItems = 10000 := rfl
    refine ⟨?_, ?_, ⟨?_, ?_, ?_⟩, ?_, ?_⟩
    all_goals simp [hblocks, hfrees, hroom, tallocMaxAllocs]
  width := by
    intro x hx y hy
    obtain rfl := List.mem_singleton.mp hx
    obtain rfl := List.mem_singleton.mp hy
    exact .inl rfl
  repeats := Nat.le_add_right _ _

/-- The first transaction gets a fault in the last entry. -/
def lastAfterOne : FaultSettings := ⟨some 1, none, some 2⟩

/-- The fault is in the only entry of the handler and is seen. -/
theorem injectedFault_detected_incrementCounter :
    ∃ w, AtCommit Env.plain (Build.twoWay false true) incrementCounter
        (World.init (Build.twoWay false true) fun _ => 0) w ∧
      ∃ f' w', w.tryCommitInjecting Env.plain (Build.twoWay false true) lastAfterOne 0 0 Faults.zero =
        .ok (false, f', w') := by
  have hend : AtCommit Env.plain (Build.twoWay false true) incrementCounter
      (World.init (Build.twoWay false true) fun _ => 0) _ := ⟨_, rfl, rfl⟩
  obtain ⟨r, f', w', hrun, hr, _⟩ := injectedFault_detected_iff rfl .start
    (admissible_incrementCounter _) hend lastAfterOne 0 0 Faults.zero
  have hseen : r = false := by
    refine hr.mpr (.inr ⟨by decide, 0, Nat.zero_lt_one, ⟨rfl, by decide⟩, ?_⟩)
    rintro ⟨j, _, hj, hne, _⟩
    exact hne (Nat.lt_one_iff.mp hj)
  exact ⟨_, hend, f', w', hseen ▸ hrun⟩

/-- The counter ends at 255: the fault turns the 1 of phase 0 into 254, the rollback stores it and
the second attempt increments it. -/
theorem injectedFault_retried_incrementCounter :
    ∃ w f' w' w'' w3, AtCommit Env.plain (Build.twoWay false true) incrementCounter
        (World.init (Build.twoWay false true) fun _ => 0) w ∧
      w.tryCommitInjecting Env.plain (Build.twoWay false true) lastAfterOne 0 0 Faults.zero =
        .ok (false, f', w') ∧
      w'.recover Env.plain (Build.twoWay false true) = .ok w'' ∧
      Transacts Env.plain (Build.twoWay false true) incrementCounter w'' w3 ∧
      load w3.mem 64 8 = 255 := by
  have hend : AtCommit Env.plain (Build.twoWay false true) incrementCounter
      (World.init (Build.twoWay false true) fun _ => 0) _ := ⟨_, rfl, rfl⟩
  obtain ⟨w'', hrecover, hmachine, hagain⟩ := injectedFault_retried .start
    (admissible_incrementCounter _) hend rfl
    (show World.tryCommitInjecting Env.plain _ lastAfterOne 0 0 Faults.zero _ = .ok (false, _, _) from rfl)
  rw [hmachine] at hagain
  obtain ⟨w3, htransacts, houtcome⟩ := hagain (admissible_incrementCounter _)
  refine ⟨_, _, _, w'', w3, hend, rfl, hrecover, htransacts, ?_⟩
  rw [World.mem, houtcome]
  decide

end World

end LibSei
