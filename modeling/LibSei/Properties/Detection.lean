-- SUMMARY: What the comparison at commit detects: soundness per byte for two and for N phases, and false alarms on fault-free transactions.
import LibSei.Abuf.Logs
import LibSei.ModeCow.Commit
import LibSei.ModeCow.Handler

/-!
# Detection at commit

At the end of the last phase the log of phase 0 holds what phase 0 wrote and memory
holds what the last phase left. The comparison decides on the shapes of all logs, on
the values of phase 0 against memory, and on which writes share their addresses. The
results here say what follows for the bytes the phases leave.
-/

namespace LibSei

open Memory Control

/-- Every write of the list that the memory does not show is excused. -/
def Excused (excuse : List Write → Nat → Prop) (mem : Mem) (ws : List Write) : Prop :=
  ∀ i (hi : i < ws.length), Mismatch mem ws[i] → excuse ws i

/-- All phases leave the same value in every byte that one of them writes. -/
def PhasesAgree (n : Nat) (hist : Nat → List Write) (mem : Mem) : Prop :=
  ∀ a, (∃ p < n, ∃ x ∈ hist p, x.Covers a) →
    ∀ p < n, runWrites (hist p) mem a = runWrites (hist 0) mem a

/-- The other phases write to the locations of phase 0, in the same order. -/
def SameLocations (n : Nat) (hist : Nat → List Write) : Prop :=
  ∀ p, 1 ≤ p → p < n → shapes (hist p) = shapes (hist 0)

/-! ## The comparisons at the end of the last phase -/

/-- Assembling what a check accepts from what it implies and what it accepts then. -/
private theorem iff_of_implies {P S R Q : Prop} (hS : P → S) (h : S → (P ↔ R ∧ Q)) :
    P ↔ R ∧ S ∧ Q := by
  constructor
  · intro hP
    obtain ⟨hR, hQ⟩ := (h (hS hP)).mp hP
    exact ⟨hR, hS hP, hQ⟩
  · rintro ⟨hR, hS', hQ⟩
    exact (h hS').mpr ⟨hR, hQ⟩

section Final

variable {b : Build} {w0 w : World} {n : Nat} {hist : Nat → List Write}

/-- The logs at the end of the last phase. -/
structure FinalLogs (w0 : World) (n : Nat) (hist : Nat → List Write) (w : World) : Prop where
  mem : w.mem = runWrites (hist (n - 1)) w0.mem
  holds : (w.sei.cow 0).Holds (hist 0)
  shaped : ∀ p < n, (w.sei.cow p).Shaped (hist p)
  poped : ∀ p < n, (w.sei.cow p).poped = 0
  sized : ∀ p, Abuf.Sized (hist p)

theorem World.InPhase.finalLogs (h : World.InPhase w0 n hist (n - 1) (hist (n - 1)) w)
    (hn : 2 ≤ n) (hsized : ∀ p, Abuf.Sized (hist p)) : FinalLogs w0 n hist w where
  mem := h.mem
  holds := h.past 0 (by omega)
  shaped p hp := by
    rcases Nat.lt_or_ge p (n - 1) with hlt | hge
    · exact (h.past p hlt).shaped
    · obtain rfl : p = n - 1 := by omega
      exact h.current.shaped_of_olds
  poped := h.poped
  sized := hsized

/-- The logs at the end of the last phase, whatever the phases did. -/
theorem finalLogs_of_finalPhase {env : Env} {phases : Nat → List Call} (hidle : w0.Idle b n)
    (hrun : World.finalPhase env b phases w0 = .ok w) :
    FinalLogs w0 n (fun p => writesOf (phases p)) w := by
  have hn := hidle.two_le
  rw [World.finalPhase, hidle.level] at hrun
  exact (hidle.inPhase (by omega) hrun).finalLogs hn (fun p => sized_writesOf (phases p))

namespace FinalLogs

variable (h : FinalLogs w0 n hist w)
include h

/-- The conflicts the comparison finds are the writes that memory does not show. -/
theorem excused_iff {P : Nat → Prop} {excuse : List Write → Nat → Prop}
    (hP : ∀ i < (hist 0).length, (P i ↔ excuse (hist 0) i)) :
    (∀ ce ∈ (w.sei.cow 0).conflicts w.mem, P ce) ↔ Excused excuse w.mem (hist 0) := by
  constructor
  · intro hall i hi hmis
    exact (hP i hi).mp (hall i ((h.holds.mem_conflicts (h.sized 0)).mpr ⟨hi, hmis⟩))
  · intro hall ce hce
    obtain ⟨hi, hmis⟩ := (h.holds.mem_conflicts (h.sized 0)).mp hce
    exact (hP ce hi).mpr (hall ce hi hmis)

theorem excused_hasLater : (∀ ce ∈ (w.sei.cow 0).conflicts w.mem, (w.sei.cow 0).HasLater ce) ↔
    Excused Superseded w.mem (hist 0) :=
  h.excused_iff fun _ hi => h.holds.shaped.hasLater hi

theorem excused_hasDuplicate :
    (∀ ce ∈ (w.sei.cow 0).conflicts w.mem, (w.sei.cow 0).HasDuplicate ce) ↔
      Excused Duplicated w.mem (hist 0) :=
  h.excused_iff fun _ hi => h.holds.shaped.hasDuplicate hi

theorem known : ∀ i < (w.sei.cow 0).pushed, ((w.sei.cow 0).buf i).Known :=
  h.holds.shaped.known (h.sized 0)

theorem length_conflicts :
    ((w.sei.cow 0).conflicts w.mem).length = mismatches w.mem (hist 0) :=
  h.holds.length_conflicts (h.sized 0)

theorem sameShape_iff (hn : 0 < n) :
    Abuf.SameShape w.sei.cow n ↔ SameLocations n hist := by
  constructor
  · intro hshape p hp hpn
    exact ((h.shaped 0 hn).sameLocation_iff (h.shaped p hpn)).mp
      ⟨hshape.pushed p hp hpn, hshape.location p hp hpn⟩
  · intro hshape
    have hboth := fun p hp hpn =>
      ((h.shaped 0 hn).sameLocation_iff (h.shaped p hpn)).mpr (hshape p hp hpn)
    exact ⟨fun p hp hpn => (hboth p hp hpn).1, fun p hp hpn => (hboth p hp hpn).2⟩

/-- What `abuf_try_cmp_heap_nway` accepts, in terms of the writes. -/
theorem tryCmpHeapNway_iff (hn : 2 ≤ n) (hle : n ≤ b.redundancy) :
    Prod.fst <$> Abuf.tryCmpHeapNway b w.sei.cow n w.mem = .ok true ↔
      SameLocations n hist ∧ mismatches w.mem (hist 0) ≤ abufMaxConflicts ∧
        Excused Duplicated w.mem (hist 0) := by
  rw [Abuf.tryCmpHeapNway_returns_one hn hle, h.sameShape_iff (by omega), h.length_conflicts,
    h.excused_hasDuplicate]
  have hpoped : (w.sei.cow 0).poped = 0 ∧ ∀ p, 1 ≤ p → p < n → (w.sei.cow p).poped = 0 :=
    ⟨h.poped 0 (by omega), fun p _ hpn => h.poped p hpn⟩
  exact (and_iff_right hpoped).trans (and_congr_right fun _ => and_iff_right h.known)

/-- What `abuf_cmp_heap_nway` accepts. Without assertions it looks past the entries of a
log that is too short. -/
theorem cmpHeapNway_iff (hn : 3 ≤ n) :
    (∃ r, Abuf.cmpHeapNway b w.sei.cow n w.mem = .ok r) ↔
      (b.ndebug = true ∨ n = b.redundancy) ∧
      (b.ndebug = true ∨ ∀ p, 1 ≤ p → p < n → (hist p).length = (hist 0).length) ∧
      (∀ i < (hist 0).length, Abuf.PhasesMatch b w.sei.cow n i) ∧
      mismatches w.mem (hist 0) ≤ abufMaxConflicts ∧ Excused Duplicated w.mem (hist 0) := by
  have hpoped : (w.sei.cow 0).poped = 0 := h.poped 0 (by omega)
  have hlengths : (∀ p, 1 ≤ p → p < n →
        (w.sei.cow p).pushed = (w.sei.cow 0).pushed ∧ (w.sei.cow p).poped = 0) ↔
      ∀ p, 1 ≤ p → p < n → (hist p).length = (hist 0).length := by
    refine forall_congr' fun p => forall₂_congr fun _ hpn => ?_
    rw [(h.shaped p hpn).pushed, h.holds.pushed]
    exact and_iff_left (h.poped p hpn)
  have hmatch : (∀ i < (w.sei.cow 0).pushed, Abuf.PhasesMatch b w.sei.cow n i ∧
        (b.ndebug = true ∨ ((w.sei.cow 0).buf i).Known)) ↔
      ∀ i < (hist 0).length, Abuf.PhasesMatch b w.sei.cow n i := by
    rw [h.holds.pushed]
    exact forall₂_congr fun i hi => and_iff_left (.inr (h.known i (by rw [h.holds.pushed]; exact hi)))
  rw [Abuf.cmpHeapNway_returns, hmatch, h.length_conflicts, h.excused_hasDuplicate, hlengths]
  simp only [hpoped, hn, true_and]

/-- What `abuf_cmp_heap_nway` accepts of logs of the same locations. -/
theorem cmpHeapNway_iff_of_sameLocations (hn : 3 ≤ n) (hshape : SameLocations n hist) :
    (∃ r, Abuf.cmpHeapNway b w.sei.cow n w.mem = .ok r) ↔
      (b.ndebug = true ∨ n = b.redundancy) ∧ mismatches w.mem (hist 0) ≤ abufMaxConflicts ∧
        Excused Duplicated w.mem (hist 0) := by
  have hlen : ∀ p, 1 ≤ p → p < n → (hist p).length = (hist 0).length :=
    fun p hp hpn => length_eq_of_shapes (hshape p hp hpn)
  have hmatch : ∀ i < (hist 0).length, Abuf.PhasesMatch b w.sei.cow n i :=
    fun i hi p hp hpn => h.holds.shaped.entryMatches (h.shaped p hpn) (hshape p hp hpn)
      (by rw [h.holds.pushed]; exact hi)
  rw [h.cmpHeapNway_iff hn]
  exact and_congr_right fun _ => (and_iff_right (.inr hlen)).trans (and_iff_right hmatch)

/-- With assertions `abuf_cmp_heap_nway` accepts only logs of the same locations. -/
theorem cmpHeapNway_iff_of_asserts (hn : 3 ≤ n) (hb : b.ndebug = false) :
    (∃ r, Abuf.cmpHeapNway b w.sei.cow n w.mem = .ok r) ↔
      n = b.redundancy ∧ SameLocations n hist ∧ mismatches w.mem (hist 0) ≤ abufMaxConflicts ∧
        Excused Duplicated w.mem (hist 0) := by
  have hshape : (∃ r, Abuf.cmpHeapNway b w.sei.cow n w.mem = .ok r) → SameLocations n hist := by
    intro hret p hp hpn
    rw [h.cmpHeapNway_iff hn] at hret
    simp only [hb, Bool.false_eq_true, false_or] at hret
    obtain ⟨_, hlen, hmatch, _⟩ := hret
    refine ((h.shaped 0 (by omega)).sameLocation_iff (h.shaped p hpn)).mp ⟨?_, fun i hi => ?_⟩
    · rw [(h.shaped p hpn).pushed, h.holds.pushed, hlen p hp hpn]
    · have hentry := hmatch i (by rw [← h.holds.pushed]; exact hi) p hp hpn
      exact ⟨hentry.addr, hentry.size.resolve_left (by simp [hb])⟩
  refine iff_of_implies hshape fun hsame => ?_
  rw [h.cmpHeapNway_iff_of_sameLocations hn hsame]
  simp only [hb, Bool.false_eq_true, false_or]

/-- What `abuf_cmp_heap` accepts of logs of the same locations. -/
theorem cmpHeap_iff_of_shapes (hn : n = 2) (hshape : shapes (hist 1) = shapes (hist 0)) :
    (∃ r, Abuf.cmpHeap b (w.sei.cow 0) (w.sei.cow 1) w.mem = .ok r) ↔
      (b.ndebug = true ∨ b.redundancy = 2) ∧ mismatches w.mem (hist 0) ≤ abufMaxConflicts ∧
        Excused Superseded w.mem (hist 0) := by
  subst hn
  have h0 := h.shaped 0 (by decide)
  have h1 := h.shaped 1 (by decide)
  have hpushed := ((h0.sameLocation_iff h1).mpr hshape).1
  rw [Abuf.cmpHeap_returns (h.poped 0 (by decide)) (h.poped 1 (by decide)), h.length_conflicts,
    h.excused_hasLater]
  have hentries : ∀ i < (w.sei.cow 0).pushed,
      Abuf.EntryMatches b (w.sei.cow 0) (w.sei.cow 1) i ∧
        (b.ndebug = true ∨ ((w.sei.cow 0).buf i).Known) :=
    fun i hi => ⟨h0.entryMatches h1 hshape hi, .inr (h.known i hi)⟩
  simp only [hpushed, or_true, true_and]
  exact and_congr_right fun _ => and_iff_right (hpushed ▸ hentries)

/-- With assertions `abuf_cmp_heap` accepts only logs of the same locations. -/
theorem cmpHeap_iff_of_asserts (hn : n = 2) (hb : b.ndebug = false) :
    (∃ r, Abuf.cmpHeap b (w.sei.cow 0) (w.sei.cow 1) w.mem = .ok r) ↔
      b.redundancy = 2 ∧ shapes (hist 1) = shapes (hist 0) ∧
        mismatches w.mem (hist 0) ≤ abufMaxConflicts ∧ Excused Superseded w.mem (hist 0) := by
  have hshape : (∃ r, Abuf.cmpHeap b (w.sei.cow 0) (w.sei.cow 1) w.mem = .ok r) →
      shapes (hist 1) = shapes (hist 0) := by
    subst hn
    intro hret
    rw [Abuf.cmpHeap_returns (h.poped 0 (by decide)) (h.poped 1 (by decide))] at hret
    simp only [hb, Bool.false_eq_true, false_or] at hret
    obtain ⟨_, hpushed, hentries, _⟩ := hret
    refine ((h.shaped 0 (by decide)).sameLocation_iff (h.shaped 1 (by decide))).mp
      ⟨hpushed.symm, fun i hi => ?_⟩
    obtain ⟨hmatch, _⟩ := hentries i hi
    exact ⟨hmatch.addr, hmatch.size.resolve_left (by simp [hb])⟩
  refine iff_of_implies hshape fun hsame => ?_
  rw [h.cmpHeap_iff_of_shapes hn hsame]
  simp only [hb, Bool.false_eq_true, false_or]

/-- What `abuf_try_cmp_heap` accepts, in terms of the writes. -/
theorem tryCmpHeap_iff (hn : n = 2) :
    Prod.fst <$> Abuf.tryCmpHeap b (w.sei.cow 0) (w.sei.cow 1) w.mem = .ok true ↔
      (b.ndebug = true ∨ b.redundancy = 2) ∧ shapes (hist 1) = shapes (hist 0) ∧
        mismatches w.mem (hist 0) ≤ abufMaxConflicts ∧ Excused Duplicated w.mem (hist 0) := by
  subst hn
  rw [Abuf.tryCmpHeap_returns_one, h.length_conflicts, h.excused_hasDuplicate,
    ← (h.shaped 0 (by decide)).sameLocation_iff (h.shaped 1 (by decide))]
  simp only [h.poped 0 (by decide), h.poped 1 (by decide), true_and]
  refine and_congr_right fun _ => ?_
  constructor
  · rintro ⟨hpushed, hloc, hrest⟩
    exact ⟨⟨hpushed.symm, fun i hi => (hloc i hi).1⟩, hrest⟩
  · rintro ⟨⟨hpushed, hloc⟩, hrest⟩
    exact ⟨hpushed.symm, fun i hi => ⟨hloc i hi, h.known i hi⟩, hrest⟩

end FinalLogs

end Final

/-! ## Two phases -/

/-- Some byte is left different by the two lists although both write the same locations:
the last write that covers it is followed by another one with its start address, which
therefore is too short to reach the byte. -/
def HiddenByNarrower (ws vs : List Write) : Prop :=
  ∃ (a i : Nat) (hi : i < ws.length) (hi' : i < vs.length),
    LastWriter ws a i ∧ Superseded ws i ∧ vs[i].byteAt a ≠ ws[i].byteAt a

/-- Every byte written by `ws` on `mem0` holds in `mem` what `ws` left there. -/
def Shows (mem : Mem) (ws : List Write) (mem0 : Mem) : Prop :=
  ∀ a, (∃ x ∈ ws, x.Covers a) → mem a = runWrites ws mem0 a

section TwoPhases

variable {env : Env} {b : Build} {w0 w : World} {phases : Nat → List Call}

/-- With assertions, what `abuf_cmp_heap` lets through leaves every byte as phase 0 wrote
it, unless it lets through a difference that a narrower write at the same address
hides. -/
theorem cmpHeap_sound_iff (hb : b.ndebug = false) (hidle : w0.Idle b 2)
    (hrun : World.finalPhase env b phases w0 = .ok w) :
    ((∃ r, Abuf.cmpHeap b (w.sei.cow 0) (w.sei.cow 1) w.mem = .ok r) →
        Shows w.mem (writesOf (phases 0)) w0.mem) ↔
      ¬ (b.redundancy = 2 ∧ shapes (writesOf (phases 1)) = shapes (writesOf (phases 0)) ∧
        mismatches w.mem (writesOf (phases 0)) ≤ abufMaxConflicts ∧
        Excused Superseded w.mem (writesOf (phases 0)) ∧
        HiddenByNarrower (writesOf (phases 0)) (writesOf (phases 1))) := by
  have h := finalLogs_of_finalPhase hidle hrun
  have hmem : w.mem = runWrites (writesOf (phases 1)) w0.mem := h.mem
  rw [h.cmpHeap_iff_of_asserts rfl hb]
  constructor
  · rintro hsound ⟨hred, hshape, hfew, hexcused, a, i, hi, hi', hlast, _, hne⟩
    have hbyte := hsound ⟨hred, hshape, hfew, hexcused⟩ a
      ⟨_, List.getElem_mem hi, hlast.2.1⟩
    rw [hmem, (hlast.of_shapes hshape).runWrites hi', hlast.runWrites hi] at hbyte
    exact hne hbyte
  · rintro hnot ⟨hred, hshape, hfew, hexcused⟩ a ⟨x, hx, hcov⟩
    obtain ⟨i, hlast⟩ := exists_lastWriter_of_covers hx hcov
    have hi := hlast.1
    have hi' := (hlast.of_shapes hshape).1
    by_contra hbyte
    -- the write that decides the byte is a mismatch, so something excused it
    rw [hlast.runWrites hi] at hbyte
    have hsup := hexcused i hi (mismatch_of_byte_ne hlast.2.1 hbyte)
    rw [hmem, (hlast.of_shapes hshape).runWrites hi'] at hbyte
    exact hnot ⟨hred, hshape, hfew, hexcused, a, i, hi, hi', hlast, hsup, hbyte⟩

/-- Phases that make the same calls hide nothing. -/
theorem cmpHeap_sound_of_sameCalls :
    ∃ w, World.finalPhase Env.plain (Build.twoWay false false)
        (fun _ => [.write .uint64 0 261, .write .uint8 0 5])
        (World.init (Build.twoWay false false) fun _ => 0) = .ok w ∧
      ((∃ r, Abuf.cmpHeap (Build.twoWay false false) (w.sei.cow 0) (w.sei.cow 1) w.mem = .ok r) →
        Shows w.mem (writesOf [.write .uint64 0 261, .write .uint8 0 5]) fun _ => 0) := by
  obtain ⟨w, hrun⟩ : ∃ w, World.finalPhase Env.plain (Build.twoWay false false)
      (fun _ => [.write .uint64 0 261, .write .uint8 0 5])
      (World.init (Build.twoWay false false) fun _ => 0) = .ok w := ⟨_, rfl⟩
  refine ⟨w, hrun, (cmpHeap_sound_iff rfl (World.idle_init _ _) hrun).mpr ?_⟩
  rintro ⟨_, _, _, _, _, _, _, _, _, _, hne⟩
  exact hne rfl

/-- Phase 0 writes a 64-bit word and then its first byte; phase 1 writes another word
and the same byte. -/
def narrowerPhases (p : Nat) : List Call :=
  [.write .uint64 0 (256 * (p + 1) + 5), .write .uint8 0 5]

/-- The comparison returns and byte 1 is not what phase 0 left in it. -/
theorem cmpHeap_narrowerPhases :
    ∃ w, World.finalPhase Env.plain (Build.twoWay false false) narrowerPhases
        (World.init (Build.twoWay false false) fun _ => 0) = .ok w ∧
      (∃ r, Abuf.cmpHeap (Build.twoWay false false) (w.sei.cow 0) (w.sei.cow 1) w.mem = .ok r) ∧
      ¬ Shows w.mem (writesOf (narrowerPhases 0)) fun _ => 0 := by
  refine ⟨_, rfl, ⟨_, rfl⟩, fun hshows => ?_⟩
  exact absurd (hshows 1 (by decide)) (by decide)

end TwoPhases

/-! ## Three and more phases -/

/-- A phase between the first and the last leaves some byte other than phase 0 does. -/
def MiddleDiffers (n : Nat) (hist : Nat → List Write) (mem : Mem) : Prop :=
  ∃ p, 1 ≤ p ∧ p < n - 1 ∧ ∃ a, runWrites (hist p) mem a ≠ runWrites (hist 0) mem a

/-- The last phase leaves some byte other than phase 0 does, and phase 0 does not write the
byte or decides it by a write that shares its start address with another one. -/
def LastHidden (n : Nat) (hist : Nat → List Write) (mem : Mem) : Prop :=
  ∃ a, runWrites (hist (n - 1)) mem a ≠ runWrites (hist 0) mem a ∧
    ∀ i, LastWriter (hist 0) a i → Duplicated (hist 0) i

section Agreement

variable {n : Nat} {hist : Nat → List Write} {mem : Mem}

/-- Where phases agree on the bytes they write, they agree everywhere. -/
theorem PhasesAgree.runWrites_eq (h : PhasesAgree n hist mem) {p : Nat} (hp : p < n) (a : Nat) :
    runWrites (hist p) mem a = runWrites (hist 0) mem a := by
  by_cases hcov : ∃ q < n, ∃ x ∈ hist q, x.Covers a
  · exact h a hcov p hp
  · have hnone : ∀ q < n, runWrites (hist q) mem a = mem a := fun q hq =>
      runWrites_of_not_covers fun x hx hxa => hcov ⟨q, hq, x, hx, hxa⟩
    rw [hnone p hp, hnone 0 (by omega)]

/-- Once every write of phase 0 that the last phase does not show is excused, phases that
disagree are of two kinds. -/
theorem phasesAgree_iff_of_excused (hn : 2 ≤ n)
    (hexcused : Excused Duplicated (runWrites (hist (n - 1)) mem) (hist 0)) :
    PhasesAgree n hist mem ↔ ¬ (MiddleDiffers n hist mem ∨ LastHidden n hist mem) := by
  constructor
  · rintro hagree (⟨p, _, hp, a, hne⟩ | ⟨a, hne, _⟩)
    · exact hne (hagree.runWrites_eq (by omega) a)
    · exact hne (hagree.runWrites_eq (by omega) a)
  · rintro hnot a _ p hp
    by_contra hne
    apply hnot
    rcases Nat.eq_zero_or_pos p with rfl | hpos
    · exact absurd rfl hne
    rcases Nat.lt_or_ge p (n - 1) with hlt | hge
    · exact .inl ⟨p, hpos, hlt, a, hne⟩
    · -- memory is what the last phase left, so its difference was excused
      obtain rfl : p = n - 1 := by omega
      refine .inr ⟨a, hne, fun i hlast => hexcused i hlast.1 ?_⟩
      rw [hlast.runWrites hlast.1] at hne
      exact mismatch_of_byte_ne hlast.2.1 hne

/-- When a check that excuses differences in this way is sound. -/
theorem sound_iff_of_excused (hn : 2 ≤ n) {A : Prop}
    (hA : A → Excused Duplicated (runWrites (hist (n - 1)) mem) (hist 0)) :
    (A → PhasesAgree n hist mem) ↔
      ¬ (A ∧ (MiddleDiffers n hist mem ∨ LastHidden n hist mem)) := by
  rw [not_and]
  exact forall_congr' fun h => phasesAgree_iff_of_excused hn (hA h)

end Agreement

section Phases

variable {env : Env} {b : Build} {n : Nat} {w0 w : World} {phases : Nat → List Call}

/-- When the phases agree on all that the comparisons for three and more phases let
through. The comparisons read the locations of all phases, but values only of phase 0 and
of memory, so a phase in the middle may write what it likes, and a write of phase 0 that
memory contradicts is excused by any other one at its address. In the release build
`abuf_cmp_heap_nway` does not even compare the sizes and the numbers of writes. -/
theorem cmpHeapNway_agreement_iff (hn : 3 ≤ n) (hidle : w0.Idle b n)
    (hrun : World.finalPhase env b phases w0 = .ok w) :
    ((Prod.fst <$> Abuf.tryCmpHeapNway b w.sei.cow n w.mem = .ok true →
        PhasesAgree n (fun p => writesOf (phases p)) w0.mem) ↔
      ¬ (SameLocations n (fun p => writesOf (phases p)) ∧
        mismatches w.mem (writesOf (phases 0)) ≤ abufMaxConflicts ∧
        Excused Duplicated w.mem (writesOf (phases 0)) ∧
        (MiddleDiffers n (fun p => writesOf (phases p)) w0.mem ∨
          LastHidden n (fun p => writesOf (phases p)) w0.mem))) ∧
    (b.ndebug = false →
      (((∃ r, Abuf.cmpHeapNway b w.sei.cow n w.mem = .ok r) →
          PhasesAgree n (fun p => writesOf (phases p)) w0.mem) ↔
        ¬ (n = b.redundancy ∧ SameLocations n (fun p => writesOf (phases p)) ∧
          mismatches w.mem (writesOf (phases 0)) ≤ abufMaxConflicts ∧
          Excused Duplicated w.mem (writesOf (phases 0)) ∧
          (MiddleDiffers n (fun p => writesOf (phases p)) w0.mem ∨
            LastHidden n (fun p => writesOf (phases p)) w0.mem)))) ∧
    (b.ndebug = true →
      (((∃ r, Abuf.cmpHeapNway b w.sei.cow n w.mem = .ok r) →
          PhasesAgree n (fun p => writesOf (phases p)) w0.mem) ↔
        ¬ ((∀ i < (writesOf (phases 0)).length, Abuf.PhasesMatch b w.sei.cow n i) ∧
          mismatches w.mem (writesOf (phases 0)) ≤ abufMaxConflicts ∧
          Excused Duplicated w.mem (writesOf (phases 0)) ∧
          (MiddleDiffers n (fun p => writesOf (phases p)) w0.mem ∨
            LastHidden n (fun p => writesOf (phases p)) w0.mem)))) := by
  have h := finalLogs_of_finalPhase hidle hrun
  have hmem := h.mem
  refine ⟨?_, fun hb => ?_, fun hb => ?_⟩
  · rw [h.tryCmpHeapNway_iff hidle.two_le hidle.le,
      sound_iff_of_excused hidle.two_le fun haccept => hmem ▸ haccept.2.2]
    simp only [and_assoc]
  · rw [h.cmpHeapNway_iff_of_asserts hn hb,
      sound_iff_of_excused hidle.two_le fun haccept => hmem ▸ haccept.2.2.2]
    simp only [and_assoc]
  · rw [h.cmpHeapNway_iff hn,
      sound_iff_of_excused hidle.two_le fun haccept => hmem ▸ haccept.2.2.2.2]
    simp only [hb, true_or, true_and, and_assoc]

/-- Phases that make the same calls agree, whatever the comparison says. -/
theorem cmpHeapNway_agreement_of_sameCalls :
    ∃ w, World.finalPhase Env.plain (Build.threeWay false true) (fun _ => [.write .uint8 0 1])
        (World.init (Build.threeWay false true) fun _ => 0) = .ok w ∧
      (Prod.fst <$> Abuf.tryCmpHeapNway (Build.threeWay false true) w.sei.cow 3 w.mem = .ok true →
        PhasesAgree 3 (fun _ => writesOf [.write .uint8 0 1]) fun _ => 0) := by
  obtain ⟨w, hrun⟩ : ∃ w, World.finalPhase Env.plain (Build.threeWay false true)
      (fun _ => [.write .uint8 0 1])
      (World.init (Build.threeWay false true) fun _ => 0) = .ok w := ⟨_, rfl⟩
  have hiff := cmpHeapNway_agreement_iff (by decide) (World.idle_init _ _) hrun
  refine ⟨w, hrun, hiff.1.mpr ?_⟩
  rintro ⟨_, _, _, ⟨_, _, _, _, hne⟩ | ⟨_, hne, _⟩⟩
  · exact hne rfl
  · exact hne rfl

/-- Three phases that write the byte at address 0; phase 1 writes another value. -/
def middlePhases (p : Nat) : List Call := [.write .uint8 0 (if p = 1 then 2 else 1)]

/-- Everything accepts, `sei_try_commit` included, and phase 1 left another value than the
others. -/
theorem cmpHeapNway_middlePhases :
    ∃ w, World.finalPhase Env.plain (Build.threeWay true true) middlePhases
        (World.init (Build.threeWay true true) fun _ => 0) = .ok w ∧
      Prod.fst <$> World.tryCommit Env.plain (Build.threeWay true true) w = .ok true ∧
      Prod.fst <$> Abuf.tryCmpHeapNway (Build.threeWay true true) w.sei.cow 3 w.mem = .ok true ∧
      (∃ r, Abuf.cmpHeapNway (Build.threeWay true true) w.sei.cow 3 w.mem = .ok r) ∧
      ¬ PhasesAgree 3 (fun p => writesOf (middlePhases p)) fun _ => 0 := by
  refine ⟨_, rfl, rfl, rfl, ⟨_, rfl⟩, fun hagree => ?_⟩
  exact absurd (hagree 0 ⟨0, by decide, by decide⟩ 1 (by decide)) (by decide)

end Phases

/-! ## Fault-free transactions -/

section FaultFree

variable (env : Env) {b : Build} {n : Nat} {w0 : World}

/-- Which transactions of a deterministic handler the comparisons accept: those in which
every write that the final memory does not show whole shares its start address with
another write, a later one for `abuf_cmp_heap`, and in which such writes are few. -/
theorem handlerEnd_accepted_iff (hidle : w0.Idle b n) (h : Handler) :
    ∃ w, World.handlerEnd env b h w0 = .ok w ∧
      (n = 2 →
        ((∃ r, Abuf.cmpHeap b (w.sei.cow 0) (w.sei.cow 1) w.mem = .ok r) ↔
          (b.ndebug = true ∨ b.redundancy = 2) ∧
          mismatches (h.exec w0.mem).2 (accessWrites (h.exec w0.mem).1) ≤ abufMaxConflicts ∧
          Excused Superseded (h.exec w0.mem).2 (accessWrites (h.exec w0.mem).1)) ∧
        (Prod.fst <$> Abuf.tryCmpHeap b (w.sei.cow 0) (w.sei.cow 1) w.mem = .ok true ↔
          (b.ndebug = true ∨ b.redundancy = 2) ∧
          mismatches (h.exec w0.mem).2 (accessWrites (h.exec w0.mem).1) ≤ abufMaxConflicts ∧
          Excused Duplicated (h.exec w0.mem).2 (accessWrites (h.exec w0.mem).1))) ∧
      (3 ≤ n →
        ((∃ r, Abuf.cmpHeapNway b w.sei.cow n w.mem = .ok r) ↔
          (b.ndebug = true ∨ n = b.redundancy) ∧
          mismatches (h.exec w0.mem).2 (accessWrites (h.exec w0.mem).1) ≤ abufMaxConflicts ∧
          Excused Duplicated (h.exec w0.mem).2 (accessWrites (h.exec w0.mem).1)) ∧
        (Prod.fst <$> Abuf.tryCmpHeapNway b w.sei.cow n w.mem = .ok true ↔
          mismatches (h.exec w0.mem).2 (accessWrites (h.exec w0.mem).1) ≤ abufMaxConflicts ∧
          Excused Duplicated (h.exec w0.mem).2 (accessWrites (h.exec w0.mem).1))) := by
  obtain ⟨w, hend, hin⟩ := hidle.handlerEnd env h
  have hlogs := hin.finalLogs hidle.two_le fun _ => Handler.sized_accessWrites _
  have hshape : SameLocations n fun _ => accessWrites (h.exec w0.mem).1 := fun _ _ _ => rfl
  rw [h.exec_mem, ← hin.mem]
  refine ⟨w, hend, fun hn => ⟨?_, ?_⟩, fun hn => ⟨?_, ?_⟩⟩
  · exact hlogs.cmpHeap_iff_of_shapes hn rfl
  · rw [hlogs.tryCmpHeap_iff hn]
    exact and_congr_right fun _ => and_iff_right rfl
  · exact hlogs.cmpHeapNway_iff_of_sameLocations hn hshape
  · rw [hlogs.tryCmpHeapNway_iff hidle.two_le hidle.le]
    exact and_iff_right hshape

/-- A handler that writes one byte is accepted. -/
theorem handlerEnd_accepted_oneByte :
    ∃ w, World.handlerEnd Env.plain (Build.twoWay false false) (.write .uint8 0 1 .done)
        (World.init (Build.twoWay false false) fun _ => 0) = .ok w ∧
      ∃ r, Abuf.cmpHeap (Build.twoWay false false) (w.sei.cow 0) (w.sei.cow 1) w.mem = .ok r := by
  obtain ⟨w, hend, htwo, -⟩ := handlerEnd_accepted_iff Env.plain
    (World.idle_init (Build.twoWay false false) fun _ => 0) (.write .uint8 0 1 .done)
  refine ⟨w, hend, (htwo rfl).1.mpr ⟨.inr rfl, by decide, fun i hi hmis => ?_⟩⟩
  obtain rfl : i = 0 := Nat.lt_one_iff.mp hi
  exact absurd hmis (by decide +revert)

/-- Clearing a 64-bit word and then storing a 32-bit field in its upper half. -/
def fieldStore : Handler := .write .uint64 0 0 (.write .uint32 4 1 .done)

/-- Run without any fault, this handler is rejected by every comparison. -/
theorem handlerEnd_fieldStore :
    (∃ w, World.handlerEnd Env.plain (Build.twoWay false false) fieldStore
        (World.init (Build.twoWay false false) fun _ => 0) = .ok w ∧
      Exec.Fails (Abuf.cmpHeap (Build.twoWay false false) (w.sei.cow 0) (w.sei.cow 1) w.mem) ∧
      Prod.fst <$> Abuf.tryCmpHeap (Build.twoWay false false) (w.sei.cow 0) (w.sei.cow 1) w.mem =
        .ok false) ∧
    (∃ w, World.handlerEnd Env.plain (Build.threeWay false false) fieldStore
        (World.init (Build.threeWay false false) fun _ => 0) = .ok w ∧
      Exec.Fails (Abuf.cmpHeapNway (Build.threeWay false false) w.sei.cow 3 w.mem) ∧
      Prod.fst <$> Abuf.tryCmpHeapNway (Build.threeWay false false) w.sei.cow 3 w.mem =
        .ok false) :=
  ⟨⟨_, rfl, ⟨.fail _ _, trivial, rfl⟩, rfl⟩, ⟨_, rfl, ⟨.fail _ _, trivial, rfl⟩, rfl⟩⟩

end FaultFree

end LibSei
