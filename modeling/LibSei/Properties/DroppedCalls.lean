-- SUMMARY: What dropping the deferred calls leaves behind: when the queue is like a new one, and that dropped calls are never made.
import LibSei.Traversal.Wts

/-!
# Dropped calls

A rollback drops the calls that were put aside. `wts_reset` clears all items, but it sets the
counters of the first two phases only.
-/

namespace LibSei

open Memory Control

/-- A call of `wts_add`. -/
structure Deferral where
  phase : Nat
  func : Nat
  args : List Nat

namespace Wts

/-- Calls put aside one after the other. -/
def addAll (b : Build) : List Deferral → Wts → Exec Wts
  | [], w => .ok w
  | d :: ds, w => do
      let w ← w.add b d.phase d.func d.args
      addAll b ds w

/-- The calls of a phase, in order. -/
def ofPhase (p : Nat) (ds : List Deferral) : List (Nat × List Nat) :=
  (ds.filter fun d => d.phase = p).map fun d => (d.func, d.args)

/-- The queue is used, and what happens to the outside is recorded. -/
inductive Use where
  | add (d : Deferral)
  | flush

def Use.run (b : Build) : Use → Wts × Machine → Exec (Wts × Machine)
  | .add d, (w, m) => do
      let w ← w.add b d.phase d.func d.args
      return (w, m)
  | .flush, (w, m) => w.flush b m

/-- The queue takes any calls that are put aside alike in all phases, in any order of the phases, and
makes exactly these. Whatever is done with it, it makes no other calls than such that were put
aside since. -/
structure LikeNew (b : Build) (w : Wts) : Prop where
  accepts : ∀ (ds : List Deferral) (calls : List (Nat × List Nat)) (m : Machine),
    (∀ d ∈ ds, d.phase < b.redundancy ∧ d.func ≠ 0 ∧ d.args.length ≤ wtsMaxArg) →
    (∀ p < b.redundancy, ofPhase p ds = calls) → calls.length + 1 ≤ w.maxItems →
    ∃ w1 w2, addAll b ds w = .ok w1 ∧ w1.canFlush b = .ok true ∧
      w1.flush b m = .ok (w2, { m with trace := m.trace ++ calls.map fun c => .called c.1 c.2 }) ∧
      ∀ p < b.redundancy, w2.nitems p = 0
  forgets : ∀ (uses : List Use) (m : Machine) (w' : Wts) (m' : Machine),
    uses.foldlM (fun s use => use.run b s) (w, m) = .ok (w', m') →
    ∃ es, m'.trace = m.trace ++ es ∧
      ∀ e ∈ es, ∃ d, Use.add d ∈ uses ∧ e = .called d.func d.args

variable {b : Build} {w w' : Wts} {m m' : Machine} {ds : List Deferral} {use : Use} {uses : List Use}

/-! ## Putting calls aside -/

theorem ofPhase_cons (p : Nat) (d : Deferral) (ds : List Deferral) :
    ofPhase p (d :: ds) = (if d.phase = p then [(d.func, d.args)] else []) ++ ofPhase p ds := by
  by_cases h : d.phase = p
  · rw [ofPhase, List.filter_cons_of_pos (by simpa using h), if_pos h]
    rfl
  · rw [ofPhase, List.filter_cons_of_neg (by simpa using h), if_neg h]
    rfl

/-- Each phase collects its calls, while there is room. -/
theorem addAll_of_queued (queued : Nat → List (Nat × List Nat))
    (h : ∀ p < b.redundancy, w.Queued p (queued p))
    (hds : ∀ d ∈ ds, d.phase < b.redundancy ∧ d.func ≠ 0 ∧ d.args.length ≤ wtsMaxArg)
    (hroom : ∀ p < b.redundancy, (queued p ++ ofPhase p ds).length + 1 ≤ w.maxItems) :
    ∃ w', addAll b ds w = .ok w' ∧ ∀ p < b.redundancy, w'.Queued p (queued p ++ ofPhase p ds) := by
  induction ds generalizing w queued with
  | nil =>
    refine ⟨w, rfl, fun p hp => ?_⟩
    rw [show ofPhase p [] = [] from rfl, List.append_nil]
    exact h p hp
  | cons d ds ih =>
    obtain ⟨hphase, hfunc, hargs⟩ := hds d List.mem_cons_self
    simp only [ofPhase_cons, ← List.append_assoc] at hroom ⊢
    have hown := hroom d.phase hphase
    rw [if_pos rfl, List.length_append, List.length_append, List.length_singleton] at hown
    obtain ⟨w1, hadd, hqueued, hmax, hothers⟩ :=
      (h d.phase hphase).add (b := b) hphase hfunc hargs (by omega)
    have hnow : ∀ p < b.redundancy,
        w1.Queued p (queued p ++ if d.phase = p then [(d.func, d.args)] else []) := by
      intro p hp
      by_cases hpd : d.phase = p
      · subst hpd
        rwa [if_pos rfl]
      · rw [if_neg hpd, List.append_nil]
        exact hothers p _ (Ne.symm hpd) (h p hp)
    obtain ⟨w', hrest, h'⟩ := ih _ hnow (fun d' hd' => hds d' (List.mem_cons_of_mem d hd'))
      (hmax.symm ▸ hroom)
    exact ⟨w', by rw [addAll, hadd]; exact hrest, h'⟩

theorem add_eq_ok {d : Deferral} (h : w.add b d.phase d.func d.args = .ok w') :
    0 < w.maxItems ∧ w'.maxItems = w.maxItems ∧ d.phase < b.redundancy ∧
      w'.nitems = Function.update w.nitems d.phase (w.nitems d.phase + 1) := by
  simp only [Wts.add, bind_eq_ok, pure_eq_ok, Except.ok.injEq, Int.toNat_natCast, inBounds_eq_ok] at h
  obtain ⟨_, -, _, -, _, hphase, _, -, _, hroom, _, -, rfl⟩ := h
  exact ⟨by omega, rfl, by omega, rfl⟩

/-- The counters count the calls of their phase. -/
theorem nitems_addAll (h : addAll b ds w = .ok w') (p : Nat) :
    w'.nitems p = w.nitems p + (ofPhase p ds).length := by
  induction ds generalizing w with
  | nil =>
    cases h
    rfl
  | cons d ds ih =>
    rw [addAll, bind_eq_ok] at h
    obtain ⟨w1, hadd, hrest⟩ := h
    obtain ⟨-, -, -, hnitems⟩ := add_eq_ok hadd
    rw [ih hrest, hnitems, ofPhase_cons, List.length_append]
    by_cases hpd : d.phase = p
    · subst hpd
      rw [Function.update_self, if_pos rfl, List.length_singleton, Nat.add_assoc]
    · rw [Function.update_of_ne (Ne.symm hpd), if_neg hpd, List.length_nil, Nat.zero_add]

theorem addAll_eq_ok (h : addAll b ds w = .ok w') :
    w'.maxItems = w.maxItems ∧ ∀ d ∈ ds, 0 < w.maxItems ∧ d.phase < b.redundancy := by
  induction ds generalizing w with
  | nil =>
    cases h
    exact ⟨rfl, fun d hd => absurd hd List.not_mem_nil⟩
  | cons d ds ih =>
    rw [addAll, bind_eq_ok] at h
    obtain ⟨w1, hadd, hrest⟩ := h
    obtain ⟨hpos, hmax, hphase, -⟩ := add_eq_ok hadd
    obtain ⟨hmax', hds⟩ := ih hrest
    rw [hmax] at hmax' hds
    exact ⟨hmax', List.forall_mem_cons.mpr ⟨⟨hpos, hphase⟩, hds⟩⟩

/-! ## Using the queue -/

/-- Only calls of the first phase are made, and only after they were put aside. -/
theorem Queued.forgets {calls : List (Nat × List Nat)} (h : w.Queued 0 calls)
    (hrun : uses.foldlM (fun s use => use.run b s) (w, m) = .ok (w', m')) :
    ∃ es, m'.trace = m.trace ++ es ∧ ∀ e ∈ es, (∃ c ∈ calls, e = .called c.1 c.2) ∨
      ∃ d, Use.add d ∈ uses ∧ e = .called d.func d.args := by
  induction uses generalizing w m calls with
  | nil =>
    cases hrun
    exact ⟨[], (List.append_nil _).symm, fun e he => absurd he List.not_mem_nil⟩
  | cons use uses ih =>
    rw [List.foldlM_cons, bind_eq_ok] at hrun
    obtain ⟨⟨w1, m1⟩, hstep, hrest⟩ := hrun
    cases use with
    | add d =>
      simp only [Use.run, bind_eq_ok, pure_eq_ok, Except.ok.injEq, Prod.mk.injEq] at hstep
      obtain ⟨_, hadd, rfl, rfl⟩ := hstep
      by_cases hd : d.phase = 0
      · rw [hd] at hadd
        obtain ⟨es, htrace, hes⟩ := ih (h.of_add hadd).1 hrest
        refine ⟨es, htrace, fun e he => ?_⟩
        rcases hes e he with ⟨c, hc, rfl⟩ | ⟨d', hd', rfl⟩
        · rcases List.mem_append.mp hc with hc | hc
          · exact .inl ⟨c, hc, rfl⟩
          · rw [List.mem_singleton.mp hc]
            exact .inr ⟨d, List.mem_cons_self, rfl⟩
        · exact .inr ⟨d', List.mem_cons_of_mem _ hd', rfl⟩
      · obtain ⟨es, htrace, hes⟩ := ih (h.of_add_ne (Ne.symm hd) hadd) hrest
        refine ⟨es, htrace, fun e he => (hes e he).imp_right ?_⟩
        rintro ⟨d', hd', rfl⟩
        exact ⟨d', List.mem_cons_of_mem _ hd', rfl⟩
    | flush =>
      simp only [Use.run, Wts.flush_eq, bind_eq_ok, pure_eq_ok, Except.ok.injEq, Prod.mk.injEq] at hstep
      obtain ⟨_, -, _, -, rfl, rfl⟩ := hstep
      have hempty : Queued { w with nitems := fun p => if p < b.redundancy then 0 else w.nitems p } 0 [] :=
        queued_nil (if_pos (Nat.lt_of_lt_of_le (by decide) b.two_le))
      obtain ⟨es, htrace, hes⟩ := ih hempty hrest
      rw [h.nitems, callItems_of_queued h (Nat.le_refl _), List.take_length] at htrace
      refine ⟨_, htrace.trans (List.append_assoc _ _ _), fun e he => ?_⟩
      rcases List.mem_append.mp he with he | he
      · obtain ⟨c, hc, rfl⟩ := List.mem_map.mp he
        exact .inl ⟨c, hc, rfl⟩
      · rcases hes e he with ⟨c, hc, -⟩ | ⟨d, hd, rfl⟩
        · exact absurd hc List.not_mem_nil
        · exact .inr ⟨d, List.mem_cons_of_mem _ hd, rfl⟩

/-- With all counters at 0 a queue is like a new one, whatever its items hold. -/
theorem likeNew_of_nitems (h : ∀ p < b.redundancy, w.nitems p = 0) : LikeNew b w := by
  have hzero : 0 < b.redundancy := Nat.lt_of_lt_of_le (by decide) b.two_le
  constructor
  · intro ds calls m hds hcalls hroom
    obtain ⟨w1, hadd, hqueued⟩ := addAll_of_queued (fun _ => []) (fun p hp => queued_nil (h p hp)) hds
      (fun p hp => by rw [List.nil_append, hcalls p hp]; exact hroom)
    have hall : ∀ p < b.redundancy, w1.Queued p calls := fun p hp => by
      have hp' := hqueued p hp
      rwa [List.nil_append, hcalls p hp] at hp'
    have hfunc : ∀ c ∈ calls, c.1 ≠ 0 := by
      rw [← hcalls 0 hzero]
      intro c hc
      obtain ⟨d, hd, rfl⟩ := List.mem_map.mp hc
      exact (hds d (List.mem_filter.mp hd).1).2.1
    have hcan := canFlush_of_queued hfunc hall
    have hflush := flush_of_canFlush (m := m) hcan
    rw [(hall 0 hzero).nitems, callItems_of_queued (hall 0 hzero) (Nat.le_refl _),
      List.take_length] at hflush
    exact ⟨w1, _, hadd, hcan, hflush, fun p hp => if_pos hp⟩
  · intro uses m w' m' hrun
    obtain ⟨es, htrace, hes⟩ := (queued_nil (h 0 hzero)).forgets hrun
    refine ⟨es, htrace, fun e he => (hes e he).resolve_left ?_⟩
    rintro ⟨c, hc, -⟩
    exact List.not_mem_nil hc

/-- After `wts_reset` the queue is like a new one exactly if no call was put aside in a phase behind
the second one. -/
theorem reset_likeNew_iff (b : Build) (maxItems : Nat) (ds : List Deferral) (w : Wts)
    (hadd : addAll b ds (init maxItems) = .ok w) :
    LikeNew b w.reset ↔ ∀ d ∈ ds, d.phase < 2 := by
  obtain ⟨hmax, hds⟩ := addAll_eq_ok hadd
  have hnitems : ∀ p, 2 ≤ p → w.reset.nitems p = (ofPhase p ds).length := by
    intro p hp
    have hone : p ≠ 1 := by omega
    have hzero : p ≠ 0 := by omega
    show Function.update (Function.update w.nitems 0 0) 1 0 p = _
    rw [Function.update_of_ne hone, Function.update_of_ne hzero, nitems_addAll hadd]
    exact Nat.zero_add _
  constructor
  · intro hnew d hd
    by_contra hphase
    obtain ⟨hpos, hlt⟩ := hds d hd
    -- Already with no calls at all the counters differ.
    obtain ⟨w1, -, hrun, hcan, -⟩ := hnew.accepts [] [] ⟨fun _ => 0, 0, []⟩
      (fun d hd => absurd hd List.not_mem_nil) (fun _ _ => rfl) (hmax ▸ hpos)
    cases hrun
    have hsame := nitems_of_canFlush hcan (by omega) hlt
    rw [hnitems d.phase (by omega)] at hsame
    have hmem : (d.func, d.args) ∈ ofPhase d.phase ds :=
      List.mem_map.mpr ⟨d, List.mem_filter.mpr ⟨hd, by simp⟩, rfl⟩
    rw [show w.reset.nitems 0 = 0 from rfl, List.length_eq_zero_iff] at hsame
    rw [hsame] at hmem
    exact List.not_mem_nil hmem
  · intro hphases
    refine likeNew_of_nitems fun p _ => ?_
    rcases Nat.lt_or_ge p 2 with hlt | hge
    · obtain rfl | rfl : p = 0 ∨ p = 1 := by omega
      · rfl
      · rfl
    · rw [hnitems p hge, List.length_eq_zero_iff, ofPhase, List.map_eq_nil_iff, List.filter_eq_nil_iff]
      intro d hd
      have hlt := hphases d hd
      simp only [decide_eq_true_eq]
      omega

/-- Two phases, one call dropped in each. -/
theorem reset_likeNew_twoPhases : ∃ w,
    addAll (Build.twoWay false true) [⟨0, 5, [1]⟩, ⟨1, 5, [1]⟩] (init scMaxCalls) = .ok w ∧
      LikeNew (Build.twoWay false true) w.reset :=
  ⟨_, rfl, (reset_likeNew_iff (Build.twoWay false true) scMaxCalls
    [⟨0, 5, [1]⟩, ⟨1, 5, [1]⟩] _ rfl).mpr (by simp)⟩

/-- With three phases, a call dropped in the last one is still counted there. The next calls, put aside
alike in all phases, are refused. -/
theorem reset_threePhases : ∃ w w1,
    addAll (Build.threeWay false true) [⟨0, 5, [1]⟩, ⟨1, 5, [1]⟩, ⟨2, 5, [1]⟩] (init scMaxCalls) = .ok w ∧
    addAll (Build.threeWay false true) [⟨0, 7, []⟩, ⟨1, 7, []⟩, ⟨2, 7, []⟩] w.reset = .ok w1 ∧
    w1.nitems 0 = 1 ∧ w1.nitems 2 = 2 ∧ w1.canFlush (Build.threeWay false true) = .ok false :=
  ⟨_, _, rfl, rfl, rfl, rfl, rfl⟩

end Wts

end LibSei
