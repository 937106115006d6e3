-- SUMMARY: What the phases of a transaction put aside until commit: their deferred calls and their frees, each phase in its own lists.
import LibSei.ModeCow.Sequence

/-!
# What the phases put aside

Deferred calls go to the waitress and freed pointers to the trash bin, each into the list
of the current phase. So at any point of a transaction the lists of a phase are those of
the operations this phase has made.
-/

namespace LibSei

open Memory Control

namespace World

section PutAside

variable {env : Env} {b : Build} {w w' w0 : World} {n k p : Nat} {c : Call} {cs : List Call}
  {css phases : Nat → List Call}

/-! ## Deferred calls -/

theorem queued_call (h : w.sei.wts.Queued p ((css p).filterMap Call.deferred?)) (hp : w.sei.p = k)
    (hrun : w.call env b c = .ok w') :
    w'.sei.wts.Queued p ((Function.update css k (css k ++ [c]) p).filterMap Call.deferred?) := by
  cases hc : c.deferred? with
  | none =>
    rw [(call_frame hrun).wts hc]
    by_cases hpk : p = k
    · subst hpk
      simpa [hc] using h
    · simpa [hpk] using h
  | some call =>
    obtain ⟨fp, args, rfl⟩ : ∃ fp args, c = .defer fp args := by
      cases c with
      | defer fp args => exact ⟨fp, args, rfl⟩
      | _ => cases hc
    simp only [World.call, World.defer, hp, bind_eq_ok, pure_eq_ok, Except.ok.injEq] at hrun
    obtain ⟨wts, hadd, rfl⟩ := hrun
    by_cases hpk : p = k
    · subst hpk
      simpa [Call.deferred?] using (h.of_add hadd).1
    · simpa [hpk] using h.of_add_ne hpk hadd

/-- The calls phase `p` has deferred so far. -/
theorem Startable.queued (h : w0.Startable b n) (hnone : w0.sei.wts.nitems p = 0) (hk : k < n)
    (hrun : World.inPhase env b phases w0 k cs = .ok w) :
    w.sei.wts.Queued p ((upTo phases k cs p).filterMap Call.deferred?) := by
  refine h.inPhase_induction
    (R := fun _ css w => w.sei.wts.Queued p ((css p).filterMap Call.deferred?)) ?_ ?_ ?_ hk hrun
  · unfold beginPhase
    split <;> exact Wts.queued_nil hnone
  · intro k css c w w' _ hp _ hqueued hrun
    exact queued_call hqueued hp hrun
  · intro k css w w' _ _ hqueued hrun
    rw [(switch_frame hrun).2.2.2.2]
    exact hqueued

/-! ## Frees -/

theorem call_of_freed {ptr : Nat} (hc : c.freed? = some ptr) (hp : w.sei.p = k)
    (hrun : w.call env b c = .ok w') : w.sei.tbin.add b ptr k = .ok w'.sei.tbin := by
  cases c with
  | free ptr' =>
    cases hc
    simp only [World.call, World.free, hp, bind_eq_ok, pure_eq_ok, Except.ok.injEq] at hrun
    obtain ⟨tbin, hadd, rfl⟩ := hrun
    exact hadd
  | _ => cases hc

theorem trashed_call (h : w.sei.tbin.Trashed p ((css p).filterMap Call.freed?)) (hp : w.sei.p = k)
    (hrun : w.call env b c = .ok w') :
    w'.sei.tbin.Trashed p ((Function.update css k (css k ++ [c]) p).filterMap Call.freed?) := by
  cases hc : c.freed? with
  | none =>
    rw [(call_frame hrun).tbin hc]
    by_cases hpk : p = k
    · subst hpk
      simpa [hc] using h
    · simpa [hpk] using h
  | some ptr =>
    have hadd := call_of_freed hc hp hrun
    by_cases hpk : p = k
    · subst hpk
      simpa [hc] using h.of_add hadd
    · simpa [hpk] using h.of_add_ne hpk hadd

/-- The pointers phase `p` has freed so far. -/
theorem Startable.trashed (h : w0.Startable b n) (hnone : w0.sei.tbin.nitems p = 0) (hk : k < n)
    (hrun : World.inPhase env b phases w0 k cs = .ok w) :
    w.sei.tbin.Trashed p ((upTo phases k cs p).filterMap Call.freed?) := by
  refine h.inPhase_induction
    (R := fun _ css w => w.sei.tbin.Trashed p ((css p).filterMap Call.freed?)) ?_ ?_ ?_ hk hrun
  · unfold beginPhase
    split <;> exact Tbin.trashed_nil hnone
  · intro k css c w w' _ hp _ htrashed hrun
    exact trashed_call htrashed hp hrun
  · intro k css w w' _ _ htrashed hrun
    rw [(switch_frame hrun).2.2.2.1]
    exact htrashed

/-- The slots behind the pointers stay null. -/
theorem Startable.blank (h : w0.Startable b n) (hclean : w0.sei.tbin.Clean) (hk : k < n)
    (hrun : World.inPhase env b phases w0 k cs = .ok w) : w.sei.tbin.Blank p := by
  refine h.inPhase_induction (R := fun _ _ w => w.sei.tbin.Blank p) ?_ ?_ ?_ hk hrun
  · unfold beginPhase
    split <;> exact fun i _ => hclean.items i p
  · intro k css c w w' _ hp _ hblank hrun
    cases hc : c.freed? with
    | none =>
      rw [(call_frame hrun).tbin hc]
      exact hblank
    | some ptr => exact hblank.of_add (call_of_freed hc hp hrun)
  · intro k css w w' _ _ hblank hrun
    rw [(switch_frame hrun).2.2.2.1]
    exact hblank

/-- The trash bin keeps its capacity. -/
theorem Startable.tbin_maxItems (h : w0.Startable b n) (hk : k < n)
    (hrun : World.inPhase env b phases w0 k cs = .ok w) :
    w.sei.tbin.maxItems = w0.sei.tbin.maxItems := by
  refine h.inPhase_induction (R := fun _ _ w => w.sei.tbin.maxItems = w0.sei.tbin.maxItems) ?_ ?_ ?_
    hk hrun
  · unfold beginPhase
    split <;> rfl
  · intro k css c w w' _ hp _ hsame hrun
    cases hc : c.freed? with
    | none => rw [(call_frame hrun).tbin hc, hsame]
    | some ptr => rw [(Tbin.add_eq_ok (call_of_freed hc hp hrun)).1, hsame]
  · intro k css w w' _ _ hsame hrun
    rw [(switch_frame hrun).2.2.2.1, hsame]

end PutAside

end World

end LibSei
