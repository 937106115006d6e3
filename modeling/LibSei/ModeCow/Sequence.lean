-- SUMMARY: Transactions one after the other: what a commit and a rollback leave for the next transaction or the next attempt.
import LibSei.ModeCow.Commit
import LibSei.ModeCow.Frame

/-!
# Sequences of transactions

A transaction works on the parts of its own phases, and the number of phases may change
from one transaction to the next. Between transactions the logs and the allocation
counters of all phases of the build are empty, whichever of them the last one used.
-/

namespace LibSei

open Memory Control

namespace World

/-- The logs and the allocation counters of all phases of the build are empty. -/
structure Clear (b : Build) (w : World) : Prop where
  cow : ∀ j < b.redundancy, (w.sei.cow j).Empty
  size : ∀ j < b.redundancy, w.sei.talloc.size j = 0

theorem clear_init (b : Build) (mem : Mem) : (World.init b mem).Clear b :=
  ⟨fun _ _ => ⟨rfl, rfl⟩, fun _ _ => rfl⟩

section Sequence

variable {env : Env} {b : Build} {n m k : Nat} {w0 w w' : World} {phases : Nat → List Call}
  {cs : List Call} {hist : Nat → List Write} {ws : List Write}

/-- `sei_set_redundancy` between transactions. -/
theorem Idle.set (h : w.Idle b m) (hclear : w.Clear b) (hn : 2 ≤ n) (hle : n ≤ b.redundancy)
    {s : Sei} (hset : w.sei.setRedundancy b n = .ok s) :
    World.Idle b n { w with sei := s } ∧ World.Clear b { w with sei := s } := by
  simp only [Sei.setRedundancy, bind_eq_ok, pure_eq_ok, Except.ok.injEq] at hset
  obtain ⟨_, _, _, _, rfl⟩ := hset
  exact ⟨{
    two_le := hn
    le := hle
    p := h.p
    level := rfl
    cow := fun j hj => hclear.cow j (by omega)
    talloc_p := h.talloc_p
    talloc_level := rfl
    talloc_size := fun j hj => hclear.size j (by omega)
    tbin_level := rfl
    obuf_p := h.obuf_p
    obuf_level := rfl }, hclear.cow, hclear.size⟩

/-! ## Inside a transaction -/

theorem switch_frame (h : w.switch env b = .ok w') :
    (∀ j : Nat, (j : Int) ≠ w.sei.p → w'.sei.cow j = w.sei.cow j) ∧
      w'.sei.talloc.size = w.sei.talloc.size ∧ w'.sei.obuf = w.sei.obuf.close ∧
      w'.sei.tbin = w.sei.tbin ∧ w'.sei.wts = w.sei.wts := by
  simp only [World.switch, Talloc.switch, bind_eq_ok, pure_eq_ok, Except.ok.injEq] at h
  obtain ⟨_, _, _, ⟨_, _, _, _, rfl⟩, _, hbounds, _, _, rfl⟩ := h
  have hbounds := inBounds_eq_ok.mp hbounds
  exact ⟨fun j hj => Function.update_of_ne (by omega) _ _, rfl, rfl, rfl, rfl⟩

/-- The operations made so far, phase by phase, after the phases before `k` and the operations
`cs` of phase `k`. -/
def upTo (phases : Nat → List Call) (k : Nat) (cs : List Call) (p : Nat) : List Call :=
  if p < k then phases p else if p = k then cs else []

@[simp] theorem upTo_self : upTo phases k cs k = cs := by simp [upTo]

theorem upTo_of_lt {p : Nat} (hp : p < k) : upTo phases k cs p = phases p := if_pos hp

theorem upTo_of_le {p : Nat} (hp : p ≤ k) : upTo phases k (phases k) p = phases p := by
  rcases Nat.eq_or_lt_of_le hp with rfl | hlt
  · exact upTo_self
  · exact upTo_of_lt hlt

theorem upTo_of_gt {p : Nat} (hp : k < p) : upTo phases k cs p = [] := by
  rw [upTo, if_neg (by omega), if_neg (by omega)]

theorem upTo_zero : upTo phases 0 [] = fun _ => [] := by
  funext p
  simp [upTo]

theorem update_upTo :
    Function.update (upTo phases k []) k (upTo phases k [] k ++ cs) = upTo phases k cs := by
  funext p
  by_cases hp : p = k
  · subst hp
    simp
  · simp [upTo, hp]

theorem upTo_succ : upTo phases (k + 1) [] = upTo phases k (phases k) := by
  funext p
  rcases Nat.lt_trichotomy p k with hlt | rfl | hgt
  · rw [upTo_of_lt hlt, upTo_of_lt (by omega)]
  · rw [upTo_self, upTo_of_lt (by omega)]
  · rw [upTo_of_gt hgt]
    simp [upTo, show ¬ p < k + 1 by omega]

theorem calls_append {ds : List Call} :
    World.calls env b (cs ++ ds) w = (World.calls env b cs w >>= World.calls env b ds) := by
  induction cs generalizing w with
  | nil => rfl
  | cons c cs ih =>
    rw [List.cons_append, World.calls, World.calls, bind_assoc]
    exact congrArg _ (funext fun w => ih)

theorem inPhase_append {ds : List Call} (hrun : World.inPhase env b phases w0 k cs = .ok w)
    (hds : World.calls env b ds w = .ok w') :
    World.inPhase env b phases w0 k (cs ++ ds) = .ok w' := by
  rw [World.inPhase, bind_eq_ok] at hrun
  obtain ⟨w1, hstart, hcalls⟩ := hrun
  rw [World.inPhase, hstart, ok_bind, calls_append, hcalls, ok_bind, hds]

theorem phaseStart_congr {phases' : Nat → List Call} (h : ∀ j < k, phases' j = phases j) :
    World.phaseStart env b (fun j => World.calls env b (phases' j)) w0 k =
      World.phaseStart env b (fun j => World.calls env b (phases j)) w0 k := by
  induction k with
  | zero => rfl
  | succ k ih =>
    rw [World.phaseStart, World.phaseStart, ih fun j hj => h j (by omega), h k (Nat.lt_succ_self k)]

/-- What holds after `sei_begin` and is kept by every operation of a phase and by every switch
holds wherever the transaction is interrupted. It may speak about the phase and about the
operations made so far. -/
theorem Startable.inPhase_induction {R : Nat → (Nat → List Call) → World → Prop}
    (h : w0.Startable b n) (hbegin : R 0 (fun _ => []) w0.beginPhase)
    (hcall : ∀ (k : Nat) css (c : Call) (w w' : World), k < n → w.sei.p = k → w.sei.talloc.p = k →
      R k css w → w.call env b c = .ok w' → R k (Function.update css k (css k ++ [c])) w')
    (hswitch : ∀ (k : Nat) css (w w' : World), k + 1 < n → w.sei.p = k → R k css w →
      w.switch env b = .ok w' → R (k + 1) css w')
    (hk : k < n) (hrun : World.inPhase env b phases w0 k cs = .ok w) :
    R k (upTo phases k cs) w := by
  have hcalls : ∀ (k : Nat) cs css (w w' : World), k < n → w.sei.p = k → w.sei.talloc.p = k →
      R k css w → World.calls env b cs w = .ok w' → R k (Function.update css k (css k ++ cs)) w' := by
    intro k cs
    induction cs with
    | nil =>
      intro css w w' _ _ _ hR hrun
      cases hrun
      simpa using hR
    | cons c cs ih =>
      intro css w w' hk hp htalloc hR hrun
      rw [World.calls, bind_eq_ok] at hrun
      obtain ⟨w1, hc, hrest⟩ := hrun
      have hframe := call_opFrame hc
      have hR' := ih _ w1 w' hk (hframe.p.trans hp) (hframe.talloc_p.trans htalloc)
        (hcall k css c w w1 hk hp htalloc hR hc) hrest
      simpa using hR'
  induction k generalizing w cs with
  | zero =>
    rw [World.inPhase, bind_eq_ok] at hrun
    obtain ⟨w1, hstart, hrun⟩ := hrun
    have hin : InPhase w0 n (fun j => writesOf (phases j)) 0 [] w1 := h.inPhase_start hk hstart
    rw [← update_upTo]
    refine hcalls 0 cs _ w1 w hk hin.p hin.talloc_p ?_ hrun
    rw [upTo_zero]
    cases hstart
    exact hbegin
  | succ k ih =>
    rw [World.inPhase, bind_eq_ok] at hrun
    obtain ⟨w3, hstart, hrun⟩ := hrun
    have hin : InPhase w0 n (fun j => writesOf (phases j)) (k + 1) [] w3 := h.inPhase_start hk hstart
    simp only [World.phaseStart, bind_eq_ok] at hstart
    obtain ⟨w1, hstart, w2, hphase, hnext⟩ := hstart
    have hlast : World.inPhase env b phases w0 k (phases k) = .ok w2 := by
      rw [World.inPhase, hstart, ok_bind, hphase]
    have hp := (h.inPhase (by omega) hlast).p
    rw [← update_upTo]
    refine hcalls (k + 1) cs _ w3 w hk hin.p hin.talloc_p ?_ hrun
    rw [upTo_succ]
    exact hswitch k _ w2 w3 hk hp (ih (by omega) hlast) hnext

/-- Nothing has happened yet to the parts of the phases still to come. -/
theorem Startable.untouched_inPhase (h : w0.Startable b n) (hk : k < n)
    (hrun : World.inPhase env b phases w0 k cs = .ok w) :
    ∀ j, k < j → w.sei.cow j = w0.sei.cow j ∧ w.sei.talloc.size j = w0.sei.talloc.size j := by
  refine h.inPhase_induction (R := fun k _ w => ∀ j, k < j → w.sei.cow j = w0.sei.cow j ∧
    w.sei.talloc.size j = w0.sei.talloc.size j) ?_ ?_ ?_ hk hrun
  · intro j _
    unfold beginPhase
    split <;> exact ⟨rfl, rfl⟩
  · intro k _ c w w' _ hp htalloc hsame hrun j hj
    obtain ⟨hcow, hsize⟩ := hsame j hj
    have hframe := call_opFrame hrun
    exact ⟨(hframe.cow j (by omega)).trans hcow, (hframe.talloc_size j (by omega)).trans hsize⟩
  · intro k _ w w' _ hp hsame hrun j hj
    obtain ⟨hcow, hsize⟩ := hsame j (by omega)
    obtain ⟨hcow', hsize', _⟩ := switch_frame hrun
    exact ⟨(hcow' j (by omega)).trans hcow, (congrFun hsize' j).trans hsize⟩

/-- The output buffer is in the phase of the transaction. -/
theorem Startable.obuf_inPhase (h : w0.Startable b n) (hk : k < n)
    (hrun : World.inPhase env b phases w0 k cs = .ok w) :
    w.sei.obuf.p = k ∧ w.sei.obuf.redundancyLevel = n := by
  refine h.inPhase_induction
    (R := fun k _ w => w.sei.obuf.p = k ∧ w.sei.obuf.redundancyLevel = n) ?_ ?_ ?_ hk hrun
  · unfold beginPhase
    split <;> exact ⟨h.obuf_p, h.obuf_level⟩
  · intro k _ c w w' _ _ _ hobuf hrun
    have hframe := call_opFrame hrun
    exact ⟨hframe.obuf_p.trans hobuf.1, hframe.obuf_level.trans hobuf.2⟩
  · intro k _ w w' hk _ hobuf hrun
    rw [(switch_frame hrun).2.2.1]
    exact ⟨by rw [Obuf.close, hobuf.1, hobuf.2, Nat.mod_eq_of_lt hk], hobuf.2⟩

/-! ## After a transaction -/

/-- The transaction of `w` is over in `w'`: the logs and the counters of its phases are
empty, and those of other phases are as they were. -/
structure Ended (w w' : World) : Prop where
  level : w'.sei.redundancyLevel = w.sei.redundancyLevel
  cow_of_lt : ∀ j < w.sei.redundancyLevel, (w'.sei.cow j).Empty
  cow_of_ge : ∀ j, w.sei.redundancyLevel ≤ j → w'.sei.cow j = w.sei.cow j
  talloc_p : w'.sei.talloc.p = 0
  talloc_level : w'.sei.talloc.redundancyLevel = w.sei.talloc.redundancyLevel
  talloc_size : ∀ j, w'.sei.talloc.size j =
    if j < w.sei.talloc.redundancyLevel then 0 else w.sei.talloc.size j
  tbin_level : w'.sei.tbin.redundancyLevel = w.sei.tbin.redundancyLevel
  obuf_level : w'.sei.obuf.redundancyLevel = w.sei.obuf.redundancyLevel

theorem empty_cleanAll {cow : Nat → Abuf} {j : Nat} (hj : j < n) : (cleanAll n cow j).Empty := by
  rw [cleanAll, if_pos hj]
  exact ⟨rfl, rfl⟩

theorem cleanAll_of_ge {cow : Nat → Abuf} {j : Nat} (hj : n ≤ j) : cleanAll n cow j = cow j :=
  if_neg (by omega)

/-- The comparison of the logs reads those of the transaction's phases. -/
theorem compare_of_ge {cow cow' : Nat → Abuf} {mem : Mem} (h : compare b n cow mem = .ok cow') :
    ∀ j, n ≤ j → cow' j = cow j := by
  intro j hj
  unfold compare at h
  split at h
  · simp only [bind_eq_ok, pure_eq_ok, Except.ok.injEq] at h
    obtain ⟨_, _, rfl⟩ := h
    rw [Function.update_of_ne (by omega), Function.update_of_ne (by omega)]
  · simp only [Abuf.cmpHeapNway, bind_eq_ok, pure_eq_ok, Except.ok.injEq] at h
    obtain ⟨_, _, _, _, _, _, _, _, _, _, rfl⟩ := h
    exact if_neg (by omega)

/-- What the checks of a commit leave alone. -/
theorem commitVerify_frame {s s' : Sei} {mem : Mem} (h : commitVerify b n s mem = .ok s') :
    ∃ cow cf, s' = { s with cow := cow, cf := cf } ∧ ∀ j, n ≤ j → cow j = s.cow j := by
  unfold commitVerify at h
  split at h
  · cases h
    exact ⟨_, _, rfl, fun _ _ => rfl⟩
  · simp only [bind_eq_ok, pure_eq_ok, Except.ok.injEq] at h
    obtain ⟨_, _, cow, hcompare, rfl⟩ := h
    exact ⟨_, _, rfl, compare_of_ge hcompare⟩

theorem commit_ended (h : w.commit env b = .ok w') :
    Ended w w' ∧ w'.sei.p = -1 ∧ w'.sei.obuf = w.sei.obuf.close := by
  simp only [commit, Tbin.flush, Talloc.clean, bind_eq_ok, pure_eq_ok, Except.ok.injEq] at h
  obtain ⟨s, hverify, _, _, _, ⟨_, _, _, _, rfl⟩, _, ⟨_, _, _, _, rfl⟩, _, _, _, _, _, _, rfl⟩ := h
  obtain ⟨cow, cf, rfl, hcow⟩ := commitVerify_frame hverify
  refine ⟨?_, rfl, rfl⟩
  exact {
    level := rfl
    cow_of_lt := fun j hj => empty_cleanAll hj
    cow_of_ge := fun j hj => (cleanAll_of_ge hj).trans (hcow j hj)
    talloc_p := rfl
    talloc_level := rfl
    talloc_size := fun _ => rfl
    tbin_level := rfl
    obuf_level := rfl }

/-- A commit passes `talloc_clean`. -/
theorem commit_clean (h : w.commit env b = .ok w') : w.sei.talloc.clean b = .ok w'.sei.talloc := by
  simp only [commit, bind_eq_ok, pure_eq_ok, Except.ok.injEq] at h
  obtain ⟨s, hverify, _, _, _, _, talloc, hclean, _, _, _, _, _, _, rfl⟩ := h
  obtain ⟨cow, cf, rfl, _⟩ := commitVerify_frame hverify
  exact hclean

/-- A commit leaves no frees and no deferred calls behind. -/
theorem commit_nitems (h : w.commit env b = .ok w') :
    (∀ j, w'.sei.tbin.nitems j = if j < w.sei.tbin.redundancyLevel then 0 else w.sei.tbin.nitems j) ∧
      ∀ j < b.redundancy, w'.sei.wts.nitems j = 0 := by
  simp only [commit, Wts.flushWith, Tbin.flush, bind_eq_ok, pure_eq_ok, Except.ok.injEq] at h
  obtain ⟨s, hverify, _, ⟨_, _, _, _, _, _, rfl⟩, _, ⟨_, _, _, _, rfl⟩, _, _, _, _, _, _, _, _, rfl⟩ :=
    h
  obtain ⟨cow, cf, rfl, _⟩ := commitVerify_frame hverify
  exact ⟨fun _ => rfl, fun j hj => if_pos hj⟩

theorem rollback_ended (hn : 0 < w.sei.redundancyLevel) (h : w.rollback env b = .ok w') :
    Ended w w' ∧ w'.sei.p = 0 ∧ w'.sei.obuf = w.sei.obuf.reset := by
  simp only [rollback, bind_eq_ok, pure_eq_ok, Except.ok.injEq] at h
  obtain ⟨_, _, rfl⟩ := h
  refine ⟨?_, rfl, rfl⟩
  exact {
    level := rfl
    cow_of_lt := fun j hj => empty_cleanAll hj
    cow_of_ge := fun j hj => (cleanAll_of_ge hj).trans (Function.update_of_ne (by omega) _ _)
    talloc_p := rfl
    talloc_level := rfl
    talloc_size := fun _ => rfl
    tbin_level := rfl
    obuf_level := rfl }

/-- When a transaction that left the parts of other phases alone is over, the next one can
start. -/
theorem Ended.startable (hend : Ended w w') (hready : w0.Startable b n) (hclear : w0.Clear b)
    (hin : InPhase w0 n hist k ws w)
    (hother : ∀ j, k < j → w.sei.cow j = w0.sei.cow j ∧ w.sei.talloc.size j = w0.sei.talloc.size j)
    (hk : k < n) (hp : w'.sei.p = -1 ∨ w'.sei.p = 0) (hobuf_p : w'.sei.obuf.p = 0)
    (hobuf : w.sei.obuf.redundancyLevel = n) : w'.Startable b n ∧ w'.Clear b := by
  have hcow : ∀ j < b.redundancy, (w'.sei.cow j).Empty := by
    intro j hj
    rcases Nat.lt_or_ge j n with hlt | hge
    · exact hend.cow_of_lt j (by rwa [hin.level])
    · rw [hend.cow_of_ge j (by rwa [hin.level]), (hother j (by omega)).1]
      exact hclear.cow j hj
  have hsize : ∀ j < b.redundancy, w'.sei.talloc.size j = 0 := by
    intro j hj
    rw [hend.talloc_size, hin.talloc_level]
    split
    · rfl
    · rw [(hother j (by omega)).2]
      exact hclear.size j hj
  have hle := hready.le
  refine ⟨?_, hcow, hsize⟩
  exact {
    two_le := hready.two_le
    le := hready.le
    p := hp
    level := hend.level.trans hin.level
    cow := fun j hj => hcow j (by omega)
    talloc_p := hend.talloc_p
    talloc_level := hend.talloc_level.trans hin.talloc_level
    talloc_size := fun j hj => hsize j (by omega)
    tbin_level := hend.tbin_level.trans hin.tbin_level
    obuf_p := hobuf_p
    obuf_level := hend.obuf_level.trans hobuf }

/-- The pre-check is part of the transaction. -/
theorem Ended.of_tryCommit {w1 : World} {r : Bool} (h : Ended w1 w')
    (htry : w.tryCommit env b = .ok (r, w1)) : Ended w w' := by
  obtain ⟨cf, rfl, _⟩ := tryCommit_spec htry
  exact { h with
    cow_of_ge := fun j hj => (h.cow_of_ge j hj).trans (if_neg (by omega)) }

/-- What a commit does to the process: it makes the calls put aside, then the frees. -/
theorem commit_effects (h : w.commit env b = .ok w') :
    ∃ m, w.sei.wts.flush b w.machine = .ok (w'.sei.wts, m) ∧
      w.sei.tbin.flush env m = .ok (w'.sei.tbin, w'.machine) := by
  simp only [commit, bind_eq_ok, pure_eq_ok, Except.ok.injEq] at h
  obtain ⟨s, hverify, ⟨wts, m⟩, hcalls, ⟨tbin, m'⟩, hfrees, _, _, _, _, _, _, _, _, rfl⟩ := h
  obtain ⟨cow, cf, rfl, _⟩ := commitVerify_frame hverify
  exact ⟨m, (Wts.flushWith_runCallback_eq_ok.mp hcalls).2, hfrees⟩

theorem Committed.effects (h : Committed env b w w') :
    ∃ m, w.sei.wts.flush b w.machine = .ok (w'.sei.wts, m) ∧
      w.sei.tbin.flush env m = .ok (w'.sei.tbin, w'.machine) := by
  rcases h with ⟨_, hcommit⟩ | ⟨_, w1, htry, hcommit⟩
  · exact commit_effects hcommit
  · obtain ⟨_, rfl, _⟩ := tryCommit_spec htry
    have heffects := commit_effects hcommit
    exact heffects

theorem Committed.clean (h : Committed env b w w') : w.sei.talloc.clean b = .ok w'.sei.talloc := by
  rcases h with ⟨_, hcommit⟩ | ⟨_, w1, htry, hcommit⟩
  · exact commit_clean hcommit
  · obtain ⟨_, rfl, _⟩ := tryCommit_spec htry
    have hclean := commit_clean hcommit
    exact hclean

/-- A commit ends the transaction. -/
theorem Committed.ended (h : Committed env b w w') : Ended w w' ∧ w'.sei.p = -1 := by
  rcases h with ⟨_, hcommit⟩ | ⟨_, w1, htry, hcommit⟩
  · obtain ⟨hend, hp, _⟩ := commit_ended hcommit
    exact ⟨hend, hp⟩
  · obtain ⟨hend, hp, _⟩ := commit_ended hcommit
    exact ⟨hend.of_tryCommit htry, hp⟩

/-- A transaction without frees and deferred calls commits without touching the process. -/
theorem Committed.machine (h : Committed env b w w') (hwts : w.sei.wts.nitems 0 = 0)
    (htbin : w.sei.tbin.nitems 0 = 0) : w'.machine = w.machine := by
  obtain ⟨m, hcalls, hfrees⟩ := h.effects
  rw [Tbin.flush_of_none hfrees htbin, Wts.flush_of_none hcalls hwts]

/-- A transaction that commits leaves the library ready for the next one. -/
theorem Startable.committed (h : w0.Startable b n) (hclear : w0.Clear b)
    (hrun : World.finalPhase env b phases w0 = .ok w) (hend : Ended w w') (hp : w'.sei.p = -1)
    (hobuf : w'.sei.obuf = w.sei.obuf.close) : w'.Idle b n ∧ w'.Clear b := by
  have hn := h.two_le
  rw [World.finalPhase, h.level] at hrun
  obtain ⟨hobuf_p, hobuf_level⟩ := h.obuf_inPhase (by omega) hrun
  have hobuf_p' : w'.sei.obuf.p = 0 := by
    rw [hobuf, Obuf.close, hobuf_p, hobuf_level, Nat.sub_add_cancel (by omega), Nat.mod_self]
  obtain ⟨hready, hclear'⟩ := hend.startable h hclear (h.inPhase (by omega) hrun)
    (h.untouched_inPhase (by omega) hrun) (by omega) (.inl hp) hobuf_p' hobuf_level
  exact ⟨{ hready with p := hp }, hclear'⟩

/-- An attempt that is rolled back leaves the library ready for the next attempt. -/
theorem Startable.recovered (h : w0.Startable b n) (hclear : w0.Clear b) (hk : k < n)
    (hrun : World.inPhase env b phases w0 k cs = .ok w) (hend : Ended w w') (hp : w'.sei.p = 0)
    (hobuf : w'.sei.obuf = w.sei.obuf.reset) : w'.Startable b n ∧ w'.Clear b := by
  have hobuf_p : w'.sei.obuf.p = 0 := by
    rw [hobuf]
    rfl
  exact hend.startable h hclear (h.inPhase hk hrun) (h.untouched_inPhase hk hrun) hk (.inr hp)
    hobuf_p (h.obuf_inPhase hk hrun).2

end Sequence

end World

end LibSei
