-- SUMMARY: The comparisons on arbitrary logs: where the recoverable one and the aborting one part, and which logs the release build reports.
import LibSei.Abuf.CmpHeapNway

/-!
# The comparisons on arbitrary logs

`abuf_try_cmp_heap` is meant to be `abuf_cmp_heap` with an answer in place of an abort,
and both are meant to report logs that differ in shape. The results here say for
which logs this is so.
-/

namespace LibSei

open Memory Control

namespace Abuf

/-! ## The recoverable comparison against the aborting one -/

section Agreement

variable {b : Build} {a1 a2 : Abuf} {mem : Mem}

theorem HasLater.hasDuplicate {a : Abuf} {i : Nat} (h : a.HasLater i) : a.HasDuplicate i := by
  obtain ⟨j, hj, hij, haddr⟩ := h
  exact ⟨j, hj, by omega, haddr⟩

/-- With assertions, the pairs `abuf_cmp_heap` accepts in the words of the other
function. -/
theorem cmpHeap_returns_of_asserts (hb : b.ndebug = false) (h1 : a1.poped = 0)
    (h2 : a2.poped = 0) :
    (∃ r, cmpHeap b a1 a2 mem = .ok r) ↔
      b.redundancy = 2 ∧ a1.pushed = a2.pushed ∧
      (∀ i < a1.pushed, SameLocation a1 a2 i ∧ (a1.buf i).Known) ∧
      (a1.conflicts mem).length ≤ abufMaxConflicts ∧
      ∀ ce ∈ a1.conflicts mem, a1.HasLater ce := by
  rw [cmpHeap_returns h1 h2]
  simp only [hb, Bool.false_eq_true, false_or]
  refine and_congr_right fun _ => and_congr_right fun hpushed => and_congr ?_ Iff.rfl
  refine forall₂_congr fun i hi => and_congr_left fun _ => ?_
  have hmax : i < a2.maxSize := Nat.lt_of_lt_of_le (hpushed ▸ hi) a2.pushed_le
  constructor
  · exact fun h => ⟨h.addr, h.size.resolve_left (by simp [hb])⟩
  · exact fun h => ⟨hmax, h.addr, .inr h.size⟩

/-- The two functions agree on a pair of logs unless the logs have the same shape, every
conflict shares its address with another entry, and some conflict is the last entry at
its address: there one accepts and the other does not. -/
theorem tryCmpHeap_agrees_iff (hb : b.ndebug = false) (h1 : a1.poped = 0) (h2 : a2.poped = 0)
    (hconf : (a1.conflicts mem).length < abufMaxConflicts) :
    (Prod.fst <$> tryCmpHeap b a1 a2 mem = .ok true ↔ ∃ r, cmpHeap b a1 a2 mem = .ok r) ↔
      ¬ (b.redundancy = 2 ∧ a1.pushed = a2.pushed ∧
        (∀ i < a1.pushed, SameLocation a1 a2 i ∧ (a1.buf i).Known) ∧
        (∀ ce ∈ a1.conflicts mem, a1.HasDuplicate ce) ∧
        ∃ ce ∈ a1.conflicts mem, ¬ a1.HasLater ce) := by
  rw [tryCmpHeap_returns_one, cmpHeap_returns_of_asserts hb h1 h2]
  simp only [hb, Bool.false_eq_true, false_or, h1, h2, true_and, hconf.le]
  constructor
  · rintro hiff ⟨hred, hpushed, hloc, hdup, ce, hce, hlast⟩
    obtain ⟨_, _, _, hlater⟩ := hiff.mp ⟨hred, hpushed, hloc, hdup⟩
    exact hlast (hlater ce hce)
  · intro hnot
    constructor
    · rintro ⟨hred, hpushed, hloc, hdup⟩
      refine ⟨hred, hpushed, hloc, fun ce hce => ?_⟩
      by_contra hlast
      exact hnot ⟨hred, hpushed, hloc, hdup, ce, hce, hlast⟩
    · rintro ⟨hred, hpushed, hloc, hlater⟩
      exact ⟨hred, hpushed, hloc, fun ce hce => (hlater ce hce).hasDuplicate⟩

/-- A log that writes 1 and then 2 to the byte at address 0. -/
def twiceAtZero : Abuf := ((Abuf.init 2 (by decide)).push .uint8 0 1).push .uint8 0 2

/-- With 3 at address 0 both entries are conflicts and the second one is the last at its
address: `abuf_try_cmp_heap` returns 1 and `abuf_cmp_heap` fails. -/
theorem tryCmpHeap_twiceAtZero :
    twiceAtZero.poped = 0 ∧ (twiceAtZero.conflicts fun _ => 3).length < abufMaxConflicts ∧
    Prod.fst <$> tryCmpHeap (Build.twoWay false true) twiceAtZero twiceAtZero (fun _ => 3) =
      .ok true ∧
    Exec.Fails (cmpHeap (Build.twoWay false true) twiceAtZero twiceAtZero fun _ => 3) :=
  ⟨rfl, by decide, rfl, notDuplicate twiceAtZero twiceAtZero (fun _ => 3) 1, trivial, rfl⟩

/-- With 2 at address 0 only the first entry is a conflict, and the second one excuses it: both
functions accept. -/
theorem tryCmpHeap_agrees_iff_twiceAtZero :
    (twiceAtZero.conflicts fun _ => 2) = [0] ∧
    Prod.fst <$> tryCmpHeap (Build.twoWay false true) twiceAtZero twiceAtZero (fun _ => 2) =
      .ok true ∧
    ∃ r, cmpHeap (Build.twoWay false true) twiceAtZero twiceAtZero (fun _ => 2) = .ok r := by
  have hconflicts : (twiceAtZero.conflicts fun _ => 2) = [0] := by decide
  have haccepted : Prod.fst <$> tryCmpHeap (Build.twoWay false true) twiceAtZero twiceAtZero
      (fun _ => 2) = .ok true := rfl
  refine ⟨hconflicts, haccepted, ((tryCmpHeap_agrees_iff rfl rfl rfl (by decide)).mpr ?_).mp
    haccepted⟩
  rintro ⟨_, _, _, _, ce, hce, hlast⟩
  obtain rfl : ce = 0 := by simpa [hconflicts] using hce
  exact hlast ⟨1, by decide, by decide, by decide⟩

end Agreement

/-! ## The N-way comparisons against the others -/

/-- The array `{a1, a2}`. -/
def pair (a1 a2 : Abuf) : Nat → Abuf
  | 0 => a1
  | _ + 1 => a2

section Nway

variable {b : Build} {buffers : Nat → Abuf} {n : Nat} {a1 a2 : Abuf} {mem : Mem}

/-- Past the checks on the counters the two loops read the same entries. -/
theorem tryCmpHeapNwayVisit_pair (h1 : a1.poped = 0) (h2 : a2.poped = 0) :
    tryCmpHeapNwayVisit (pair a1 a2) 2 mem = tryCmpHeapVisit a1 a2 mem := by
  funext i
  rw [tryCmpHeapNwayVisit, tryCmpHeapVisit, h1, h2, Nat.sub_zero, Nat.zero_add]
  refine bind_congr fun e1 => ?_
  rw [checkLoop_one, tryCmpHeapNwayPhase]
  simp only [bind_assoc]
  rfl

theorem tryCmpHeapNwayChecks_pair :
    tryCmpHeapNwayChecks (pair a1 a2) 2 mem = tryCmpHeapChecks a1 a2 mem := by
  rw [tryCmpHeapNwayChecks, checkLoop_one, tryCmpHeapChecks, bind_assoc]
  refine bind_congr fun _ => require_bind_congr fun hpoped => require_bind_congr fun h1 => ?_
  have h2 : a2.poped = 0 := hpoped.symm.trans h1
  have h1 : a1.poped = 0 := h1
  rw [tryCmpHeapNwayVisit_pair h1 h2, h1, Nat.sub_zero]
  rfl

theorem tryCmpHeapNway_pair : Prod.fst <$> tryCmpHeapNway b (pair a1 a2) 2 mem =
    (tryCmpHeapChecks a1 a2 mem).verdict := by
  rw [tryCmpHeapNway, Build.assert_of ⟨le_refl 2, b.two_le⟩, ok_bind, inBounds_of b.two_le, ok_bind,
    tryCmpHeapNwayChecks_pair]
  cases (tryCmpHeapChecks a1 a2 mem).verdict <;> rfl

/-- On two logs `abuf_try_cmp_heap_nway` answers as `abuf_try_cmp_heap` exactly where the assertion
of the latter lets it answer. -/
theorem tryCmpHeap_eq_tryCmpHeapNway_pair_iff :
    Prod.fst <$> tryCmpHeap b a1 a2 mem = Prod.fst <$> tryCmpHeapNway b (pair a1 a2) 2 mem ↔
      b.ndebug = true ∨ b.redundancy = 2 := by
  rw [tryCmpHeapNway_pair, tryCmpHeap]
  constructor
  · intro hsame
    by_contra hred
    -- the N-way function never stops at this assertion
    have hnever : (tryCmpHeapChecks a1 a2 mem).verdict ≠
        .error (.assertion "SEI_DMR_REDUNDANCY == 2") :=
      Checks.verdict_ne_error (tryCmpHeapChecks_ne_stop (by decide))
    rw [Build.assert, require_of_not hred] at hsame
    exact hnever hsame.symm
  · intro hred
    rw [(Build.assert_eq_ok (u := ())).mpr hred, ok_bind]
    cases (tryCmpHeapChecks a1 a2 mem).verdict <;> rfl

/-- With assertions, `abuf_cmp_heap_nway` completes on the logs `abuf_try_cmp_heap_nway` answers
with 1. -/
theorem cmpHeapNway_returns_iff_tryCmpHeapNway (hb : b.ndebug = false) (hn : 3 ≤ n)
    (hred : n = b.redundancy) :
    (∃ r, cmpHeapNway b buffers n mem = .ok r) ↔
      Prod.fst <$> tryCmpHeapNway b buffers n mem = .ok true := by
  rw [cmpHeapNway_returns, tryCmpHeapNway_returns_one (by omega) hred.le]
  simp only [hb, Bool.false_eq_true, false_or]
  constructor
  · rintro ⟨_, ⟨h0, hcounts⟩, hentries, hcap, hdup⟩
    refine ⟨⟨h0, fun p hp hpn => (hcounts p hp hpn).2⟩,
      ⟨fun p hp hpn => (hcounts p hp hpn).1, fun p hp hpn i hi => ?_⟩,
      fun i hi => (hentries i hi).2, hcap, hdup⟩
    have hmatch := (hentries i hi).1 p hp hpn
    exact ⟨hmatch.addr, hmatch.size.resolve_left (by simp [hb])⟩
  · rintro ⟨⟨h0, hpoped⟩, hshape, hknown, hcap, hdup⟩
    refine ⟨⟨hn, hred⟩, ⟨h0, fun p hp hpn => ⟨hshape.pushed p hp hpn, hpoped p hp hpn⟩⟩,
      fun i hi => ⟨fun p hp hpn => ?_, hknown i hi⟩, hcap, hdup⟩
    -- a log as long as the reference has entry `i` inside its array
    have hmax : i < (buffers p).maxSize :=
      Nat.lt_of_lt_of_le ((hshape.pushed p hp hpn).symm ▸ hi) (buffers p).pushed_le
    have hlocation := hshape.location p hp hpn i hi
    exact ⟨hmax, hlocation.addr, .inr hlocation.size⟩

/-- The N-way comparison of two logs is the two-way one exactly in a release build and in a build
for two phases. The aborting N-way comparison accepts what the recoverable one does. -/
theorem nway_comparisons_agree_iff (b : Build) (mem : Mem) :
    (∀ a1 a2, (Prod.fst <$> tryCmpHeap b a1 a2 mem =
        Prod.fst <$> tryCmpHeapNway b (pair a1 a2) 2 mem ↔
      b.ndebug = true ∨ b.redundancy = 2)) ∧
    ∀ buffers n, b.ndebug = false → 3 ≤ n → n = b.redundancy →
      ((∃ r, cmpHeapNway b buffers n mem = .ok r) ↔
        Prod.fst <$> tryCmpHeapNway b buffers n mem = .ok true) :=
  ⟨fun _ _ => tryCmpHeap_eq_tryCmpHeapNway_pair_iff,
    fun _ _ hb hn hred => cmpHeapNway_returns_iff_tryCmpHeapNway hb hn hred⟩

/-- With 3 at address 0 three logs with two conflicts are accepted, for each conflict shares its
address with the other. -/
theorem cmpHeapNway_twiceAtZero :
    (3 ≤ 3 ∧ 3 = (Build.threeWay false true).redundancy) ∧
    Prod.fst <$> tryCmpHeapNway (Build.threeWay false true) (fun _ => twiceAtZero) 3
      (fun _ => 3) = .ok true ∧
    ∃ r, cmpHeapNway (Build.threeWay false true) (fun _ => twiceAtZero) 3 (fun _ => 3) = .ok r := by
  have haccepted : Prod.fst <$> tryCmpHeapNway (Build.threeWay false true) (fun _ => twiceAtZero) 3
      (fun _ => 3) = .ok true := rfl
  exact ⟨⟨by decide, rfl⟩, haccepted,
    ((nway_comparisons_agree_iff _ _).2 _ _ rfl (by decide) rfl).mpr haccepted⟩

/-- In a build for three phases with assertions the two-way comparison stops, also on two equal logs
that memory shows. -/
theorem tryCmpHeap_threeWay :
    Prod.fst <$> tryCmpHeapNway (Build.threeWay false true) (pair twiceAtZero twiceAtZero) 2
      (fun _ => 2) = .ok true ∧
    Prod.fst <$> tryCmpHeap (Build.threeWay false true) twiceAtZero twiceAtZero (fun _ => 2) =
      .error (.assertion "SEI_DMR_REDUNDANCY == 2") := ⟨rfl, rfl⟩

end Nway

/-! ## Diverging shapes in the release build -/

/-- Two logs differ in their number of entries or in the location of an entry. -/
def ShapeDiffers (a a' : Abuf) : Prop :=
  a.pushed ≠ a'.pushed ∨ ∃ i < a.pushed, i < a'.pushed ∧
    ((a.buf i).addr ≠ (a'.buf i).addr ∨ (a.buf i).size ≠ (a'.buf i).size)

/-- Slot `i` of the second array exists and names the address of entry `i` of the first
log. The slot may lie past the entries of its own log. -/
def SameAddress (a a' : Abuf) (i : Nat) : Prop :=
  i < a'.maxSize ∧ (a.buf i).addr = (a'.buf i).addr

/-- What the release build of `abuf_cmp_heap` reports: a slot with another address after
slots with the same, or a conflict that no later entry excuses. -/
def Reported (a1 a2 : Abuf) (mem : Mem) : Prop :=
  (∃ k < a1.pushed, (∀ i < k, SameAddress a1 a2 i) ∧
    (a1.conflictsBelow mem k).length ≤ abufMaxConflicts ∧
    k < a2.maxSize ∧ (a1.buf k).addr ≠ (a2.buf k).addr) ∨
  ((∀ i < a1.pushed, SameAddress a1 a2 i) ∧ (a1.conflicts mem).length ≤ abufMaxConflicts ∧
    ∃ ce ∈ a1.conflicts mem, ¬ a1.HasLater ce)

/-- All phases before `p` have the address of entry `i` of phase 0 in their slot `i`. -/
def SameAddresses (buffers : Nat → Abuf) (p i : Nat) : Prop :=
  ∀ q, 1 ≤ q → q < p → SameAddress (buffers 0) (buffers q) i

/-- What the release build of `abuf_cmp_heap_nway` reports: a slot with another address
after slots with the same, one conflict too many, or a conflict that no other entry
excuses. -/
def ReportedNway (buffers : Nat → Abuf) (n : Nat) (mem : Mem) : Prop :=
  (∃ k < (buffers 0).pushed, (∀ i < k, SameAddresses buffers n i) ∧
    ((buffers 0).conflictsBelow mem k).length ≤ abufMaxConflicts ∧
    ((∃ p, 1 ≤ p ∧ p < n ∧ SameAddresses buffers p k ∧ k < (buffers p).maxSize ∧
        ((buffers 0).buf k).addr ≠ ((buffers p).buf k).addr) ∨
      SameAddresses buffers n k ∧ ((buffers 0).buf k).conflict mem = true ∧
        ((buffers 0).conflictsBelow mem k).length = abufMaxConflicts)) ∨
  ((∀ i < (buffers 0).pushed, SameAddresses buffers n i) ∧
    ((buffers 0).conflicts mem).length ≤ abufMaxConflicts ∧
    ∃ ce ∈ (buffers 0).conflicts mem, ¬ (buffers 0).HasDuplicate ce)

section Release

variable {b : Build}

/-- Without assertions only the addresses of two entries are compared. -/
theorem entryMatches_iff_sameAddress (hb : b.ndebug = true) {a a' : Abuf} {i : Nat} :
    EntryMatches b a a' i ↔ SameAddress a a' i :=
  ⟨fun h => ⟨h.inBounds, h.addr⟩, fun h => ⟨h.1, h.2, .inl hb⟩⟩

theorem phasesMatch_iff_sameAddresses (hb : b.ndebug = true) {buffers : Nat → Abuf} {p i : Nat} :
    PhasesMatch b buffers p i ↔ SameAddresses buffers p i :=
  forall_congr' fun _ => forall₂_congr fun _ _ => entryMatches_iff_sameAddress hb

theorem fails_cmpHeap_iff_reported (hb : b.ndebug = true) {a1 a2 : Abuf} {mem : Mem}
    (h1 : a1.poped = 0) (h2 : a2.poped = 0) :
    Exec.Fails (cmpHeap b a1 a2 mem) ↔ Reported a1 a2 mem := by
  rw [fails_cmpHeap hb h1 h2]
  simp only [entryMatches_iff_sameAddress hb]
  rfl

theorem fails_cmpHeapNway_iff_reportedNway (hb : b.ndebug = true) {buffers : Nat → Abuf} {n : Nat}
    {mem : Mem} : Exec.Fails (cmpHeapNway b buffers n mem) ↔ ReportedNway buffers n mem := by
  rw [fails_cmpHeapNway hb]
  simp only [phasesMatch_iff_sameAddresses hb]
  rfl

/-- In the release build a divergence in shape ends in `fail_ifn` exactly when it comes
with a report the comparison makes anyway: lengths and sizes are not compared. -/
theorem shapeDivergence_fails_iff (hb : b.ndebug = true) :
    (∀ a1 a2 mem, a1.poped = 0 → a2.poped = 0 →
      ((ShapeDiffers a1 a2 → Exec.Fails (cmpHeap b a1 a2 mem)) ↔
        (ShapeDiffers a1 a2 → Reported a1 a2 mem))) ∧
    ∀ buffers n mem, 3 ≤ n →
      (((∃ p, 1 ≤ p ∧ p < n ∧ ShapeDiffers (buffers 0) (buffers p)) →
          Exec.Fails (cmpHeapNway b buffers n mem)) ↔
        ((∃ p, 1 ≤ p ∧ p < n ∧ ShapeDiffers (buffers 0) (buffers p)) →
          ReportedNway buffers n mem)) := by
  constructor
  · intro a1 a2 mem h1 h2
    exact imp_congr_right fun _ => fails_cmpHeap_iff_reported hb h1 h2
  · intro buffers n mem _
    exact imp_congr_right fun _ => fails_cmpHeapNway_iff_reportedNway hb

/-- A log of one entry of the given width that holds 0 for address 0. -/
def zeroAtZero (t : UIntTy) : Abuf := (Abuf.init 2 (by decide)).push t 0 0

/-- With 1 at address 0 both logs show a conflict, and this is what is reported. -/
theorem shapeDivergence_fails_iff_zeroAtZero :
    ShapeDiffers (zeroAtZero .uint8) (zeroAtZero .uint16) ∧
    Reported (zeroAtZero .uint8) (zeroAtZero .uint16) (fun _ => 1) ∧
    Exec.Fails (cmpHeap (Build.twoWay true false) (zeroAtZero .uint8) (zeroAtZero .uint16)
      fun _ => 1) := by
  have hdiffers : ShapeDiffers (zeroAtZero .uint8) (zeroAtZero .uint16) :=
    .inr ⟨0, by decide, by decide, .inr (by decide)⟩
  have hreported : Reported (zeroAtZero .uint8) (zeroAtZero .uint16) fun _ => 1 := by
    refine .inr ⟨fun i hi => ?_, by decide, 0, by decide, ?_⟩
    · obtain rfl : i = 0 := Nat.lt_one_iff.mp hi
      exact ⟨by decide, rfl⟩
    · rintro ⟨j, hj, hlt, _⟩
      obtain rfl : j = 0 := Nat.lt_one_iff.mp hj
      exact absurd hlt (Nat.lt_irrefl 0)
  have hiff := (shapeDivergence_fails_iff (b := Build.twoWay true false) rfl).1
    (zeroAtZero .uint8) (zeroAtZero .uint16) (fun _ => 1) rfl rfl
  exact ⟨hdiffers, hreported, hiff.mpr (fun _ => hreported) hdiffers⟩

/-- A byte logged in one phase and a 16-bit word in the other: the release build of
`abuf_cmp_heap` returns. So does `abuf_cmp_heap_nway` when a later phase logged a second
entry. -/
theorem shapeDivergence_returns :
    ShapeDiffers (zeroAtZero .uint8) (zeroAtZero .uint16) ∧
    (∃ r, cmpHeap (Build.twoWay true false) (zeroAtZero .uint8) (zeroAtZero .uint16)
      (fun _ => 0) = .ok r) ∧
    ShapeDiffers (zeroAtZero .uint8) ((zeroAtZero .uint8).push .uint8 9 0) ∧
    ∃ r, cmpHeapNway (Build.threeWay true false)
      (fun p => if p = 2 then (zeroAtZero .uint8).push .uint8 9 0 else zeroAtZero .uint8) 3
      (fun _ => 0) = .ok r := by
  refine ⟨.inr ⟨0, by decide, by decide, .inr (by decide)⟩, ⟨_, rfl⟩, .inl (by decide), ⟨_, rfl⟩⟩

end Release

end Abuf

end LibSei
