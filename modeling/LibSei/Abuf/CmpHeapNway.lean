-- SUMMARY: The N-way comparisons of the logs with memory, `abuf_cmp_heap_nway` and `abuf_try_cmp_heap_nway`, and what each accepts.
import LibSei.Abuf.CmpHeap

/-!
# Comparing N logs with memory

For three or more phases the log of phase 0 is the reference: every other log must
name the same locations in the same order, and the values of the reference are
compared with memory. The values held by the other logs are not read.
-/

namespace LibSei

open Memory Control

namespace Abuf

/-! ## abuf_cmp_heap_nway -/

/-- The comparison of entry `i` of `phase` with the entry `e0` of phase 0. -/
def cmpHeapNwayPhase (b : Build) (buffers : Nat → Abuf) (i : Nat) (e0 : AbufEntry) (phase : Nat) :
    Exec Unit := do
  let ei ← (buffers phase).entryAt i
  failIfn (e0.addr = ei.addr) "addresses differ"
  b.assert (e0.size = ei.size) "e0->size == ei->size"

/-- One iteration of the entry loop of `abuf_cmp_heap_nway`. -/
def cmpHeapNwayVisit (b : Build) (buffers : Nat → Abuf) (n : Nat) (mem : Mem) (i : Nat) :
    Exec Bool := do
  let e0 ← (buffers 0).entryAt i
  checkLoop (cmpHeapNwayPhase b buffers i e0) (n - 1) 1
  e0.switchConflict mem do
    b.assert False "unknown case"
    return false

/-- The checks around `entry[nentry++] = e0`. -/
def cmpHeapNwayRoom (nentry : Nat) : Exec Unit := do
  failIfn (nentry < abufMaxConflicts) "too many conflicts"
  inBounds (nentry < abufMaxConflicts) "entry"

/-- `abuf_cmp_heap_nway`. The loop does not move the `poped` counters; they are all
set to the length of the reference log after it. -/
def cmpHeapNway (b : Build) (buffers : Nat → Abuf) (n : Nat) (mem : Mem) : Exec (Nat → Abuf) := do
  b.assert (3 ≤ n ∧ n = b.redundancy) "n >= 3 && n == SEI_DMR_REDUNDANCY"
  checkLoop (fun i => do
    b.assert ((buffers 0).pushed = (buffers i).pushed) "buffers[0]->pushed == buffers[i]->pushed"
    b.assert ((buffers 0).poped = (buffers i).poped) "buffers[0]->poped == buffers[i]->poped")
    (n - 1) 1
  b.assert ((buffers 0).poped = 0) "buffers[0]->poped == 0"
  let entry ← collect (cmpHeapNwayVisit b buffers n mem) cmpHeapNwayRoom (buffers 0).pushed 0 []
  let buffers' := fun i =>
    if i < n then { buffers i with poped := (buffers 0).pushed } else buffers i
  checkEach (fun ce => failIfn ((buffers 0).findDuplicate ce (buffers 0).pushed = true)
    "not duplicate! error detected") entry
  return buffers'

/-! ## What `abuf_cmp_heap_nway` accepts -/

/-- Every other phase passes the checks on entry `i`. -/
def PhasesMatch (b : Build) (buffers : Nat → Abuf) (n i : Nat) : Prop :=
  ∀ p, 1 ≤ p → p < n → EntryMatches b (buffers 0) (buffers p) i

section CmpHeapNway

variable {b : Build} {buffers : Nat → Abuf} {n i p : Nat} {mem : Mem}

theorem cmpHeapNwayRoom_eq_ok {k : Nat} {u : Unit} :
    cmpHeapNwayRoom k = .ok u ↔ k < abufMaxConflicts := by
  rw [cmpHeapNwayRoom, seq_eq_ok, failIfn_eq_ok, inBounds_eq_ok, and_self]

theorem fails_cmpHeapNwayRoom {k : Nat} :
    Exec.Fails (cmpHeapNwayRoom k) ↔ ¬ k < abufMaxConflicts := by
  rw [cmpHeapNwayRoom, Exec.fails_bind]
  simp

theorem cmpHeapNwayPhase_eq_ok {u : Unit} :
    cmpHeapNwayPhase b buffers i ((buffers 0).buf i) p = .ok u ↔
      EntryMatches b (buffers 0) (buffers p) i := by
  simp only [cmpHeapNwayPhase, bind_eq_ok, exists_const, entryAt_eq_ok, failIfn_eq_ok,
    Build.assert_eq_ok]
  constructor
  · rintro ⟨_, ⟨hmax, rfl⟩, haddr, hsize⟩
    exact ⟨hmax, haddr, hsize⟩
  · rintro ⟨hmax, haddr, hsize⟩
    exact ⟨_, ⟨hmax, rfl⟩, haddr, hsize⟩

theorem fails_cmpHeapNwayPhase :
    Exec.Fails (cmpHeapNwayPhase b buffers i ((buffers 0).buf i) p) ↔
      i < (buffers p).maxSize ∧ ((buffers 0).buf i).addr ≠ ((buffers p).buf i).addr := by
  simp only [cmpHeapNwayPhase, Exec.fails_bind, fails_entryAt, entryAt_eq_ok, fails_failIfn,
    Build.fails_assert, and_false, exists_false, or_false, false_or]
  constructor
  · rintro ⟨_, ⟨hmax, rfl⟩, haddr⟩
    exact ⟨hmax, haddr⟩
  · rintro ⟨hmax, haddr⟩
    exact ⟨_, ⟨hmax, rfl⟩, haddr⟩

theorem phasesMatch_iff_checkLoop {u : Unit} :
    checkLoop (cmpHeapNwayPhase b buffers i ((buffers 0).buf i)) (n - 1) 1 = .ok u ↔
      PhasesMatch b buffers n i := by
  rw [checkLoop_eq_ok]
  refine forall_congr' fun p => forall_congr' fun hp => ?_
  rw [cmpHeapNwayPhase_eq_ok, show p < 1 + (n - 1) ↔ p < n by omega]

theorem cmpHeapNwayVisit_eq_ok (hi : i < (buffers 0).pushed) {c : Bool} :
    cmpHeapNwayVisit b buffers n mem i = .ok c ↔
      (PhasesMatch b buffers n i ∧ (b.ndebug = true ∨ ((buffers 0).buf i).Known)) ∧
        c = ((buffers 0).buf i).conflict mem := by
  have hmax : i < (buffers 0).maxSize := Nat.lt_of_lt_of_le hi (buffers 0).pushed_le
  rw [cmpHeapNwayVisit, entryAt_of_lt hmax, ok_bind, seq_eq_ok, phasesMatch_iff_checkLoop,
    switchConflict_assert, and_assoc]

/-- Of the checks on one entry only the one on the addresses reports, at the first
phase that does not match. -/
theorem fails_cmpHeapNwayVisit (hi : i < (buffers 0).pushed) :
    Exec.Fails (cmpHeapNwayVisit b buffers n mem i) ↔
      ∃ p, 1 ≤ p ∧ p < n ∧ PhasesMatch b buffers p i ∧ i < (buffers p).maxSize ∧
        ((buffers 0).buf i).addr ≠ ((buffers p).buf i).addr := by
  have hmax : i < (buffers 0).maxSize := Nat.lt_of_lt_of_le hi (buffers 0).pushed_le
  simp only [cmpHeapNwayVisit, entryAt_of_lt hmax, ok_bind, Exec.fails_bind,
    fails_switchConflict_assert, and_false, exists_false, or_false]
  constructor
  · rintro ⟨e, he, hstop⟩
    obtain ⟨k, hk, hbefore, hstop⟩ := checkLoop_eq_error.mp hstop
    have hfails := fails_cmpHeapNwayPhase.mp ⟨e, he, hstop⟩
    exact ⟨1 + k, by omega, by omega,
      fun q hq hlt => cmpHeapNwayPhase_eq_ok.mp (hbefore q hq hlt), hfails⟩
  · rintro ⟨p, hp, hpn, hbefore, hfails⟩
    obtain ⟨e, he, hstop⟩ := fails_cmpHeapNwayPhase (b := b).mpr hfails
    refine ⟨e, he, checkLoop_eq_error.mpr ⟨p - 1, by omega, fun q hq hlt => ?_, ?_⟩⟩
    · exact cmpHeapNwayPhase_eq_ok.mpr (hbefore q hq (by omega))
    · rwa [show 1 + (p - 1) = p by omega]

theorem cmpHeapNwayCollect_eq_ok {entry : List Nat} :
    collect (cmpHeapNwayVisit b buffers n mem) cmpHeapNwayRoom (buffers 0).pushed 0 [] =
        .ok entry ↔
      (∀ i < (buffers 0).pushed,
        PhasesMatch b buffers n i ∧ (b.ndebug = true ∨ ((buffers 0).buf i).Known)) ∧
      entry = (buffers 0).conflicts mem ∧ entry.length ≤ abufMaxConflicts :=
  collect_capped_eq_ok (fun _ hi _ => cmpHeapNwayVisit_eq_ok hi) (fun _ => cmpHeapNwayRoom_eq_ok)

theorem cmpHeapNwayDuplicates_eq_ok {u : Unit} :
    checkEach (fun ce => failIfn
        ((buffers 0).findDuplicate ce (buffers 0).pushed = true) "not duplicate! error detected")
        ((buffers 0).conflicts mem) = .ok u ↔
      ∀ ce ∈ (buffers 0).conflicts mem, (buffers 0).HasDuplicate ce := by
  simp only [checkEach_eq_ok, failIfn_eq_ok, findDuplicate_eq_true]
  rfl

/-- The logs `abuf_cmp_heap_nway` accepts. -/
theorem cmpHeapNway_returns :
    (∃ r, cmpHeapNway b buffers n mem = .ok r) ↔
      (b.ndebug = true ∨ 3 ≤ n ∧ n = b.redundancy) ∧
      (b.ndebug = true ∨ (buffers 0).poped = 0 ∧ ∀ p, 1 ≤ p → p < n →
        (buffers p).pushed = (buffers 0).pushed ∧ (buffers p).poped = 0) ∧
      (∀ i < (buffers 0).pushed,
        PhasesMatch b buffers n i ∧ (b.ndebug = true ∨ ((buffers 0).buf i).Known)) ∧
      ((buffers 0).conflicts mem).length ≤ abufMaxConflicts ∧
      ∀ ce ∈ (buffers 0).conflicts mem, (buffers 0).HasDuplicate ce := by
  have hcounts : ((∀ p, 1 ≤ p → p < 1 + (n - 1) →
        (b.ndebug = true ∨ (buffers 0).pushed = (buffers p).pushed) ∧
          (b.ndebug = true ∨ (buffers 0).poped = (buffers p).poped)) ∧
        (b.ndebug = true ∨ (buffers 0).poped = 0)) ↔
      (b.ndebug = true ∨ (buffers 0).poped = 0 ∧ ∀ p, 1 ≤ p → p < n →
        (buffers p).pushed = (buffers 0).pushed ∧ (buffers p).poped = 0) := by
    by_cases hb : b.ndebug = true
    · simp [hb]
    · simp only [hb, Bool.false_eq_true, false_or]
      constructor
      · rintro ⟨hall, h0⟩
        refine ⟨h0, fun p hp hpn => ?_⟩
        obtain ⟨hpushed, hpoped⟩ := hall p hp (by omega)
        exact ⟨hpushed.symm, by rw [← hpoped, h0]⟩
      · rintro ⟨h0, hall⟩
        refine ⟨fun p hp hpn => ?_, h0⟩
        obtain ⟨hpushed, hpoped⟩ := hall p hp (by omega)
        exact ⟨hpushed.symm, by rw [hpoped, h0]⟩
  rw [← hcounts]
  simp only [cmpHeapNway, bind_eq_ok, exists_const, Build.assert_eq_ok, checkLoop_eq_ok,
    cmpHeapNwayCollect_eq_ok, pure_eq_ok]
  constructor
  · rintro ⟨r, hred, hphases, h0, entry, ⟨hmatch, rfl, hcap⟩, _, hdup, _⟩
    exact ⟨hred, ⟨hphases, h0⟩, hmatch, hcap, cmpHeapNwayDuplicates_eq_ok.mp hdup⟩
  · rintro ⟨hred, ⟨hphases, h0⟩, hmatch, hcap, hdup⟩
    exact ⟨_, hred, hphases, h0, _, ⟨hmatch, rfl, hcap⟩, (), cmpHeapNwayDuplicates_eq_ok.mpr hdup, rfl⟩

/-- The release build leaves the entry loop with a report at the first entry some phase
disagrees on, or at the first conflict too many. -/
theorem fails_cmpHeapNwayCollect (hb : b.ndebug = true) :
    Exec.Fails (collect (cmpHeapNwayVisit b buffers n mem) cmpHeapNwayRoom
        (buffers 0).pushed 0 []) ↔
      ∃ k < (buffers 0).pushed, (∀ i < k, PhasesMatch b buffers n i) ∧
        ((buffers 0).conflictsBelow mem k).length ≤ abufMaxConflicts ∧
        ((∃ p, 1 ≤ p ∧ p < n ∧ PhasesMatch b buffers p k ∧ k < (buffers p).maxSize ∧
            ((buffers 0).buf k).addr ≠ ((buffers p).buf k).addr) ∨
          PhasesMatch b buffers n k ∧ ((buffers 0).buf k).conflict mem = true ∧
            ((buffers 0).conflictsBelow mem k).length = abufMaxConflicts) := by
  refine (collect_capped_error_of_kind (fun _ hi _ => cmpHeapNwayVisit_eq_ok hi)
    (fun _ => cmpHeapNwayRoom_eq_ok)).trans ?_
  refine exists_congr fun k => and_congr_right fun hk => ?_
  simp only [hb, true_or, and_true]
  refine and_congr_right fun _ => and_congr_right fun hcap => or_congr ?_ ?_
  · exact fails_cmpHeapNwayVisit hk
  · refine and_congr_right fun _ => and_congr_right fun _ => fails_cmpHeapNwayRoom.trans ?_
    exact ⟨fun hfull => Nat.le_antisymm hcap (Nat.le_of_not_lt hfull), fun h => h.not_lt⟩

theorem fails_cmpHeapNwayDuplicates :
    Exec.Fails (checkEach (fun ce => failIfn
        ((buffers 0).findDuplicate ce (buffers 0).pushed = true) "not duplicate! error detected")
        ((buffers 0).conflicts mem)) ↔
      ∃ ce ∈ (buffers 0).conflicts mem, ¬ (buffers 0).HasDuplicate ce := by
  refine (checkEach_error_of_kind ?_).trans (exists_congr fun ce => and_congr_right fun _ => ?_)
  · intro ce _ e he
    obtain ⟨_, rfl⟩ := failIfn_eq_error.mp he
    trivial
  · rw [ne_eq, failIfn_eq_ok, findDuplicate_eq_true]
    rfl

/-- The logs on which the release build of `abuf_cmp_heap_nway` reports an error: at
the first entry some phase disagrees on, at the first conflict too many, or at a
conflict that no other entry excuses. -/
theorem fails_cmpHeapNway (hb : b.ndebug = true) :
    Exec.Fails (cmpHeapNway b buffers n mem) ↔
      (∃ k < (buffers 0).pushed, (∀ i < k, PhasesMatch b buffers n i) ∧
        ((buffers 0).conflictsBelow mem k).length ≤ abufMaxConflicts ∧
        ((∃ p, 1 ≤ p ∧ p < n ∧ PhasesMatch b buffers p k ∧ k < (buffers p).maxSize ∧
            ((buffers 0).buf k).addr ≠ ((buffers p).buf k).addr) ∨
          PhasesMatch b buffers n k ∧ ((buffers 0).buf k).conflict mem = true ∧
            ((buffers 0).conflictsBelow mem k).length = abufMaxConflicts)) ∨
      ((∀ i < (buffers 0).pushed, PhasesMatch b buffers n i) ∧
        ((buffers 0).conflicts mem).length ≤ abufMaxConflicts ∧
        ∃ ce ∈ (buffers 0).conflicts mem, ¬ (buffers 0).HasDuplicate ce) := by
  have hasserts : checkLoop (fun _ => (.ok () : Exec Unit)) (n - 1) 1 = .ok () :=
    checkLoop_eq_ok.mpr fun _ _ _ => rfl
  simp only [cmpHeapNway, hasserts, Build.assert_of_ndebug hb, ok_bind, Exec.fails_bind,
    fails_cmpHeapNwayCollect hb, cmpHeapNwayCollect_eq_ok, hb, true_or, and_true, pure_eq_ok,
    Exec.fails_ok, and_false, exists_false, or_false]
  refine or_congr Iff.rfl ?_
  constructor
  · rintro ⟨entry, ⟨hmatch, rfl, hcap⟩, hdup⟩
    exact ⟨hmatch, hcap, fails_cmpHeapNwayDuplicates.mp hdup⟩
  · rintro ⟨hmatch, hcap, hdup⟩
    exact ⟨_, ⟨hmatch, rfl, hcap⟩, fails_cmpHeapNwayDuplicates.mpr hdup⟩

end CmpHeapNway

/-! ## abuf_try_cmp_heap_nway -/

/-- The comparison of entry `i` of `phase` with the entry `e0` of phase 0. -/
def tryCmpHeapNwayPhase (buffers : Nat → Abuf) (i : Nat) (e0 : AbufEntry) (phase : Nat) :
    Checks Unit := do
  let ei ← Checks.ofExec ((buffers phase).entryAt i)
  Checks.unlessReturnZero (e0.size = ei.size)
  Checks.unlessReturnZero (e0.addr = ei.addr)

/-- One iteration of the entry loop of `abuf_try_cmp_heap_nway`. -/
def tryCmpHeapNwayVisit (buffers : Nat → Abuf) (n : Nat) (mem : Mem) (i : Nat) : Checks Bool := do
  let e0 ← Checks.ofExec ((buffers 0).entryAt i)
  checkLoop (tryCmpHeapNwayPhase buffers i e0) (n - 1) 1
  e0.switchConflict mem (.error .returnZero)

/-- The checks of `abuf_try_cmp_heap_nway` between the saving and the restoring of the
`poped` counters. -/
def tryCmpHeapNwayChecks (buffers : Nat → Abuf) (n : Nat) (mem : Mem) : Checks Unit := do
  checkLoop (fun i => do
    Checks.unlessReturnZero ((buffers 0).pushed = (buffers i).pushed)
    Checks.unlessReturnZero ((buffers 0).poped = (buffers i).poped)) (n - 1) 1
  Checks.unlessReturnZero ((buffers 0).poped = 0)
  let entry ← collect (tryCmpHeapNwayVisit buffers n mem) tryCmpHeapRoom (buffers 0).pushed 0 []
  checkEach (fun ce =>
    Checks.unlessReturnZero ((buffers 0).findDuplicate ce (buffers 0).pushed = true)) entry

/-- `abuf_try_cmp_heap_nway`. Every exit puts the saved `poped` counters back. -/
def tryCmpHeapNway (b : Build) (buffers : Nat → Abuf) (n : Nat) (mem : Mem) :
    Exec (Bool × (Nat → Abuf)) := do
  b.assert (2 ≤ n ∧ n ≤ b.redundancy) "n >= 2 && n <= SEI_DMR_REDUNDANCY"
  inBounds (n ≤ b.redundancy) "saved_poped"
  let savedPoped := fun k => (buffers k).poped
  let result ← (tryCmpHeapNwayChecks buffers n mem).verdict
  return (result, fun k => if k < n then { buffers k with poped := savedPoped k } else buffers k)

/-! ## What may stop `abuf_try_cmp_heap_nway` -/

section Stops

variable {buffers : Nat → Abuf} {n : Nat} {mem : Mem} {e : Stop}

theorem tryCmpHeapNwayVisit_ne_stop {i : Nat} (he : e ≠ .outOfBounds "abuf->buf") :
    tryCmpHeapNwayVisit buffers n mem i ≠ .error (.stop e) := by
  refine bind_ne_error (Checks.ofExec_ne_stop (entryAt_ne_error he)) fun e0 _ => ?_
  refine bind_ne_error (checkLoop_ne_error fun phase => ?_) fun _ _ => switchConflict_returnZero_ne_stop
  refine bind_ne_error (Checks.ofExec_ne_stop (entryAt_ne_error he)) fun ei _ => ?_
  exact bind_ne_error Checks.unlessReturnZero_ne_stop fun _ _ => Checks.unlessReturnZero_ne_stop

theorem tryCmpHeapNwayChecks_ne_stop (he : e ≠ .outOfBounds "abuf->buf") :
    tryCmpHeapNwayChecks buffers n mem ≠ .error (.stop e) := by
  refine bind_ne_error (checkLoop_ne_error fun i => ?_) fun _ _ => ?_
  · exact bind_ne_error Checks.unlessReturnZero_ne_stop fun _ _ => Checks.unlessReturnZero_ne_stop
  refine bind_ne_error Checks.unlessReturnZero_ne_stop fun _ _ => ?_
  refine bind_ne_error (collect_ne_error (fun _ => tryCmpHeapNwayVisit_ne_stop he)
    fun _ => tryCmpHeapRoom_ne_stop) fun entry _ => ?_
  exact checkEach_ne_error fun _ _ => Checks.unlessReturnZero_ne_stop

end Stops

/-! ## What `abuf_try_cmp_heap_nway` accepts -/

/-- The other logs have the length and the locations of the log of phase 0. -/
structure SameShape (buffers : Nat → Abuf) (n : Nat) : Prop where
  pushed : ∀ p, 1 ≤ p → p < n → (buffers p).pushed = (buffers 0).pushed
  location : ∀ p, 1 ≤ p → p < n → ∀ i < (buffers 0).pushed, SameLocation (buffers 0) (buffers p) i

section TryCmpHeapNway

variable {b : Build} {buffers : Nat → Abuf} {n i p : Nat} {mem : Mem}

theorem tryCmpHeapNwayVisit_eq_ok
    (hpushed : ∀ p, 1 ≤ p → p < n → (buffers p).pushed = (buffers 0).pushed)
    (hi : i < (buffers 0).pushed) {c : Bool} :
    tryCmpHeapNwayVisit buffers n mem i = .ok c ↔
      ((∀ p, 1 ≤ p → p < n → SameLocation (buffers 0) (buffers p) i) ∧
        ((buffers 0).buf i).Known) ∧ c = ((buffers 0).buf i).conflict mem := by
  have hmax : i < (buffers 0).maxSize := Nat.lt_of_lt_of_le hi (buffers 0).pushed_le
  have hphase : ∀ p, 1 ≤ p → p < n →
      (tryCmpHeapNwayPhase buffers i ((buffers 0).buf i) p = .ok () ↔
        SameLocation (buffers 0) (buffers p) i) := by
    intro p hp hpn
    have hmaxp : i < (buffers p).maxSize :=
      Nat.lt_of_lt_of_le ((hpushed p hp hpn).symm ▸ hi) (buffers p).pushed_le
    rw [tryCmpHeapNwayPhase, entryAt_of_lt hmaxp, Checks.ofExec, ok_bind, seq_eq_ok,
      Checks.unlessReturnZero_eq_ok, Checks.unlessReturnZero_eq_ok]
    exact ⟨fun h => ⟨h.2, h.1⟩, fun h => ⟨h.size, h.addr⟩⟩
  rw [tryCmpHeapNwayVisit, entryAt_of_lt hmax, Checks.ofExec, ok_bind, seq_eq_ok, checkLoop_eq_ok,
    switchConflict_returnZero, and_assoc]
  refine and_congr ?_ Iff.rfl
  constructor
  · exact fun h p hp hpn => (hphase p hp hpn).mp (h p hp (by omega))
  · exact fun h p hp hpn => (hphase p hp (by omega)).mpr (h p hp (by omega))

theorem tryCmpHeapNwayChecks_eq_ok {u : Unit} : tryCmpHeapNwayChecks buffers n mem = .ok u ↔
    ((buffers 0).poped = 0 ∧ ∀ p, 1 ≤ p → p < n → (buffers p).poped = 0) ∧
      SameShape buffers n ∧ (∀ i < (buffers 0).pushed, ((buffers 0).buf i).Known) ∧
      ((buffers 0).conflicts mem).length ≤ abufMaxConflicts ∧
      ∀ ce ∈ (buffers 0).conflicts mem, (buffers 0).HasDuplicate ce := by
  have hcheck : checkEach (fun ce =>
        Checks.unlessReturnZero ((buffers 0).findDuplicate ce (buffers 0).pushed = true))
        ((buffers 0).conflicts mem) = .ok () ↔
      ∀ ce ∈ (buffers 0).conflicts mem, (buffers 0).HasDuplicate ce := by
    simp only [checkEach_eq_ok, Checks.unlessReturnZero_eq_ok, findDuplicate_eq_true]
    rfl
  simp only [tryCmpHeapNwayChecks, bind_eq_ok, exists_const, checkLoop_eq_ok,
    Checks.unlessReturnZero_eq_ok]
  constructor
  · rintro ⟨hcounts, h0, entry, hentry, hdup⟩
    have hpushed : ∀ p, 1 ≤ p → p < n → (buffers p).pushed = (buffers 0).pushed :=
      fun p hp hpn => (hcounts p hp (by omega)).1.symm
    obtain ⟨hmatch, rfl, hcap⟩ := (collect_capped_eq_ok
      (fun i hi c => tryCmpHeapNwayVisit_eq_ok hpushed hi)
      (fun _ => tryCmpHeapRoom_eq_ok)).mp hentry
    refine ⟨⟨h0, fun p hp hpn => ?_⟩, ⟨hpushed, fun p hp hpn i hi => ?_⟩,
      fun i hi => (hmatch i hi).2, hcap, hcheck.mp hdup⟩
    · rw [← (hcounts p hp (by omega)).2, h0]
    · exact (hmatch i hi).1 p hp hpn
  · rintro ⟨⟨h0, hpoped⟩, hshape, hknown, hcap, hdup⟩
    refine ⟨fun p hp hpn => ⟨(hshape.pushed p hp (by omega)).symm, ?_⟩, h0, _, ?_, hcheck.mpr hdup⟩
    · rw [h0, hpoped p hp (by omega)]
    · exact (collect_capped_eq_ok
        (fun i hi c => tryCmpHeapNwayVisit_eq_ok hshape.pushed hi)
        (fun _ => tryCmpHeapRoom_eq_ok)).mpr
        ⟨fun i hi => ⟨fun p hp hpn => hshape.location p hp hpn i hi, hknown i hi⟩, rfl, hcap⟩

/-- The logs on which `abuf_try_cmp_heap_nway` returns 1. -/
theorem tryCmpHeapNway_returns_one (hn : 2 ≤ n) (hle : n ≤ b.redundancy) :
    Prod.fst <$> tryCmpHeapNway b buffers n mem = .ok true ↔
      ((buffers 0).poped = 0 ∧ ∀ p, 1 ≤ p → p < n → (buffers p).poped = 0) ∧
      SameShape buffers n ∧ (∀ i < (buffers 0).pushed, ((buffers 0).buf i).Known) ∧
      ((buffers 0).conflicts mem).length ≤ abufMaxConflicts ∧
      ∀ ce ∈ (buffers 0).conflicts mem, (buffers 0).HasDuplicate ce := by
  rw [← tryCmpHeapNwayChecks_eq_ok (u := ()), ← Checks.verdict_eq_true, tryCmpHeapNway,
    Build.assert_of ⟨hn, hle⟩, ok_bind, inBounds_of hle, ok_bind]
  cases (tryCmpHeapNwayChecks buffers n mem).verdict <;> simp [Functor.map, Except.map]

end TryCmpHeapNway

end Abuf

end LibSei
