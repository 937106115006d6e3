-- SUMMARY: Operations and the end of a phase at the thread interface: what each of them leaves alone.
import LibSei.ModeCow.Frame
import LibSei.Tmi.Thread

/-!
# Phases at the thread interface

What an operation of a phase may change is little: the log and the lists of its own phase,
memory and the buffers of the thread. `__sei_commit` goes on in one of three ways.
-/

namespace LibSei

open Memory Control

/-! ## Frames -/

section Frame

variable {env : Env} {b : Build} {t t' : Tmi} {o : Op} {r : Option Int32}

theorem World.OpFrame.machine (w : World) (m : Machine) : World.OpFrame w { w with machine := m } :=
  { World.OpFrame.refl w with }

theorem Wts.add_nitems {w w' : Wts} {p : Int} {fp : Nat} {args : List Nat}
    (h : w.add b p fp args = .ok w') : ∀ j : Nat, (j : Int) ≠ p → w'.nitems j = w.nitems j := by
  simp only [Wts.add, bind_eq_ok, pure_eq_ok, Except.ok.injEq] at h
  obtain ⟨_, _, _, _, _, hbounds, _, _, _, _, _, _, rfl⟩ := h
  have hbounds := inBounds_eq_ok.mp hbounds
  exact fun j hj => Function.update_of_ne (by omega) _ _

/-- A wrapped call puts calls aside in phases 0 and 1 only, each in its own list. -/
theorem SysCall.run_nitems {c : SysCall} {p : Int} {real q : Int32} {s s' : SysState}
    (h : c.run b p real s = .ok (q, s')) :
    ∀ j : Nat, (j : Int) ≠ p ∨ 2 ≤ j → s'.wts.nitems j = s.wts.nitems j := by
  intro j hj
  cases hkey : c.key? with
  | some k =>
    rw [SysCall.run_of_recorded hkey, recordedCall] at h
    split at h
    · cases h
      rfl
    split at h
    · rw [bind_eq_ok] at h
      obtain ⟨_, _, hs⟩ := h
      cases hs
      rfl
    · cases h
      rfl
  | none =>
    rw [SysCall.run_of_deferred hkey, deferredCall] at h
    split at h
    · rw [bind_eq_ok] at h
      obtain ⟨wts, hadd, hs⟩ := h
      cases hs
      exact Wts.add_nitems hadd j (by omega)
    · cases h
      rfl

theorem Tmi.seiIgnoreAddr_frame {start stop : Nat} (h : t.seiIgnoreAddr b start stop = .ok t') :
    ∃ g, t' = { t with ignore := g } := by
  unfold Tmi.seiIgnoreAddr at h
  split at h
  · cases h
    exact ⟨_, rfl⟩
  split at h
  · cases h
    exact ⟨_, rfl⟩
  · rw [bind_eq_ok] at h
    obtain ⟨g, _, ht⟩ := h
    cases ht
    exact ⟨g, rfl⟩

/-- What an operation of a phase leaves alone. -/
structure Tmi.Keeps (t t' : Tmi) : Prop where
  frame : World.OpFrame t.world t'.world
  wts : ∀ j : Nat, 2 ≤ j → t'.sei.wts.nitems j = t.sei.wts.nitems j
  high : t'.high = t.high

theorem Tmi.Keeps.refl (t : Tmi) : t.Keeps t := ⟨.refl _, fun _ _ => rfl, rfl⟩

theorem Tmi.Keeps.trans {t1 t2 t3 : Tmi} (h12 : t1.Keeps t2) (h23 : t2.Keeps t3) : t1.Keeps t3 :=
  ⟨h12.frame.trans h23.frame, fun j hj => (h23.wts j hj).trans (h12.wts j hj),
    h23.high.trans h12.high⟩

/-- An operation of the library that is none of the wrapped calls. -/
theorem Tmi.Keeps.setWorld {w : World} (h : World.OpFrame t.world w)
    (hwts : w.sei.wts = t.sei.wts) :
    t.Keeps (t.setWorld w) :=
  ⟨h, fun j _ => congrArg (fun wts => wts.nitems j) hwts, rfl⟩

theorem Tmi.op_keeps (h : t.op env b o = .ok (r, t')) : t.Keeps t' := by
  cases o with
  | write sp ty addr value =>
    simp only [Tmi.op, Tmi.itmWrite, bind_eq_ok] at h
    obtain ⟨t1, h, ht⟩ := h
    cases ht
    split at h
    · cases h
      exact ⟨.machine t.world _, fun _ _ => rfl, rfl⟩
    · rw [bind_eq_ok] at h
      obtain ⟨w, hwrite, ht⟩ := h
      cases ht
      refine .setWorld (World.write_opFrame hwrite) ?_
      simp only [World.write, bind_eq_ok, pure_eq_ok, Except.ok.injEq] at hwrite
      obtain ⟨_, _, _, _, rfl⟩ := hwrite
      rfl
  | malloc size =>
    simp only [Tmi.op, Tmi.itmMalloc, bind_eq_ok] at h
    obtain ⟨⟨addr, t1⟩, h, ht⟩ := h
    cases ht
    split at h
    · rw [bind_eq_ok] at h
      obtain ⟨t2, hadd, ht⟩ := h
      cases ht
      obtain ⟨g, rfl⟩ := Tmi.seiIgnoreAddr_frame hadd
      exact ⟨.machine t.world _, fun _ _ => rfl, rfl⟩
    · rw [bind_eq_ok] at h
      obtain ⟨⟨addr', w⟩, hmalloc, ht⟩ := h
      cases ht
      refine .setWorld (World.malloc_opFrame hmalloc) ?_
      simp only [World.malloc, bind_eq_ok, pure_eq_ok, Except.ok.injEq, Prod.mk.injEq] at hmalloc
      obtain ⟨_, _, _, rfl⟩ := hmalloc
      rfl
  | free ptr =>
    simp only [Tmi.op, Tmi.itmFree, bind_eq_ok] at h
    obtain ⟨t1, h, ht⟩ := h
    cases ht
    split at h
    · cases h
      exact ⟨.machine t.world _, fun _ _ => rfl, rfl⟩
    · rw [bind_eq_ok] at h
      obtain ⟨w, hfree, ht⟩ := h
      cases ht
      refine .setWorld (World.free_opFrame hfree) ?_
      simp only [World.free, bind_eq_ok, pure_eq_ok, Except.ok.injEq] at hfree
      obtain ⟨_, _, rfl⟩ := hfree
      rfl
  | outputAppend ptr size =>
    simp only [Tmi.op, bind_eq_ok] at h
    obtain ⟨w, happend, ht⟩ := h
    cases ht
    refine .setWorld (World.outputAppend_opFrame happend) ?_
    unfold World.outputAppend at happend
    split at happend
    · cases happend
      rfl
    · rw [bind_eq_ok] at happend
      obtain ⟨_, _, hw⟩ := happend
      cases hw
      rfl
  | outputDone =>
    simp only [Tmi.op, bind_eq_ok] at h
    obtain ⟨w, hdone, ht⟩ := h
    cases ht
    refine .setWorld (World.outputDone_opFrame hdone) ?_
    unfold World.outputDone at hdone
    split at hdone
    · cases hdone
      rfl
    · rw [bind_eq_ok] at hdone
      obtain ⟨_, _, hw⟩ := hdone
      cases hw
      rfl
  | ignore v =>
    cases h
    exact ⟨.refl _, fun _ _ => rfl, rfl⟩
  | ignoreAll v =>
    cases h
    exact ⟨.refl _, fun _ _ => rfl, rfl⟩
  | ignoreAddr start stop =>
    simp only [Tmi.op, bind_eq_ok] at h
    obtain ⟨t1, hadd, ht⟩ := h
    cases ht
    obtain ⟨g, rfl⟩ := Tmi.seiIgnoreAddr_frame hadd
    exact ⟨.refl _, fun _ _ => rfl, rfl⟩
  | sys c real =>
    simp only [Tmi.op, bind_eq_ok] at h
    obtain ⟨⟨q, s⟩, hrun, ht⟩ := h
    cases ht
    have hnitems := SysCall.run_nitems hrun
    exact ⟨{ World.OpFrame.refl t.world with wts_nitems := fun j hj => hnitems j (.inl hj) },
      fun j hj => hnitems j (.inr hj), rfl⟩
  | lock o real =>
    simp only [Tmi.op, bind_eq_ok] at h
    obtain ⟨⟨q, l⟩, _, ht⟩ := h
    cases ht
    exact ⟨.refl _, fun _ _ => rfl, rfl⟩

theorem Tmi.ops_keeps {os : List Op} {rs : List (Option Int32)}
    (h : Tmi.ops env b os t = .ok (rs, t')) :
    t.Keeps t' := by
  induction os generalizing t rs with
  | nil =>
    cases h
    exact .refl _
  | cons o os ih =>
    obtain ⟨r, t1, rs', hop, hrest, rfl⟩ := runEach_cons_eq_ok.mp h
    exact (Tmi.op_keeps hop).trans (ih hrest)

/-- What `__sei_commit` can do, by the way it goes on. -/
theorem Tmi.seiCommit_cases {next : Next} (h : t.seiCommit env b = .ok (next, t')) :
    (next = .reexecute ∧ t.sei.p < t.sei.redundancyLevel - 1 ∧
      ({ t with ignore := t.ignore.reset } : Tmi).switchPhase env b = .ok t') ∨
    (next = .retry ∧ t.sei.redundancyLevel - 1 ≤ t.sei.p ∧
      ∃ w, t.world.tryCommit env b = .ok (false, w) ∧
      (({ t with ignore := t.ignore.reset } : Tmi).setWorld w).retryCommit env b = .ok t') ∨
    (next = .committed ∧ t.sei.redundancyLevel - 1 ≤ t.sei.p ∧
      ∃ w, World.Committed env b t.world w ∧
      (({ t with ignore := t.ignore.reset } : Tmi).setWorld w).leave b = .ok t') := by
  simp only [Tmi.seiCommit] at h
  by_cases hp : t.sei.p < t.sei.redundancyLevel - 1
  · rw [if_pos hp, bind_eq_ok] at h
    obtain ⟨t1, hswitch, ht⟩ := h
    cases ht
    exact .inl ⟨rfl, hp, hswitch⟩
  rw [if_neg hp, bind_eq_ok] at h
  obtain ⟨_, _, h⟩ := h
  have hp := Int.not_lt.mp hp
  by_cases hb : b.cpuIsolation = true
  · rw [if_pos hb, bind_eq_ok] at h
    obtain ⟨⟨ok, w⟩, htry, h⟩ := h
    cases ok with
    | true =>
      simp only [if_true, bind_eq_ok] at h
      obtain ⟨w1, hcommit, t1, hleave, ht⟩ := h
      cases ht
      exact .inr (.inr ⟨rfl, hp, w1, .inr ⟨hb, w, htry, hcommit⟩, hleave⟩)
    | false =>
      simp only [Bool.false_eq_true, if_false, bind_eq_ok] at h
      obtain ⟨t1, hretry, ht⟩ := h
      cases ht
      exact .inr (.inl ⟨rfl, hp, w, htry, hretry⟩)
  · simp only [if_neg hb, bind_eq_ok] at h
    obtain ⟨w, hcommit, t1, hleave, ht⟩ := h
    cases ht
    exact .inr (.inr ⟨rfl, hp, w, .inl ⟨Bool.not_eq_true _ ▸ hb, hcommit⟩, hleave⟩)

end Frame

end LibSei
