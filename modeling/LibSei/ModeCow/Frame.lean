-- SUMMARY: What an operation of a phase leaves alone: the control state, the levels and everything that belongs to other phases.
import LibSei.ModeCow.Phases

/-!
# Frames

Every structure of the library keeps one part per phase. An operation of a handler
works on the part of the current phase; the control state, the redundancy levels and
the parts of the other phases stay as they are.
-/

namespace LibSei

open Memory Control

/-- The size an operation allocates, if it does. -/
def Call.malloced? : Call → Option Nat
  | .malloc size => some size
  | _ => none

/-- The pointer an operation frees, if it does. -/
def Call.freed? : Call → Option Nat
  | .free ptr => some ptr
  | _ => none

/-- The call an operation puts aside, if it does. -/
def Call.deferred? : Call → Option (Nat × List Nat)
  | .defer fp args => some (fp, args)
  | _ => none

namespace World

/-- From `w` to `w'` only what belongs to the current phase has changed. -/
structure OpFrame (w w' : World) : Prop where
  p : w'.sei.p = w.sei.p
  level : w'.sei.redundancyLevel = w.sei.redundancyLevel
  cf : w'.sei.cf = w.sei.cf
  ibuf : w'.sei.ibuf = w.sei.ibuf
  cow : ∀ j : Nat, (j : Int) ≠ w.sei.p → w'.sei.cow j = w.sei.cow j
  talloc_p : w'.sei.talloc.p = w.sei.talloc.p
  talloc_level : w'.sei.talloc.redundancyLevel = w.sei.talloc.redundancyLevel
  talloc_size : ∀ j, j ≠ w.sei.talloc.p → w'.sei.talloc.size j = w.sei.talloc.size j
  tbin_level : w'.sei.tbin.redundancyLevel = w.sei.tbin.redundancyLevel
  tbin_nitems : ∀ j : Nat, (j : Int) ≠ w.sei.p → w'.sei.tbin.nitems j = w.sei.tbin.nitems j
  wts_nitems : ∀ j : Nat, (j : Int) ≠ w.sei.p → w'.sei.wts.nitems j = w.sei.wts.nitems j
  obuf_p : w'.sei.obuf.p = w.sei.obuf.p
  obuf_level : w'.sei.obuf.redundancyLevel = w.sei.obuf.redundancyLevel
  obuf_queue : ∀ j, j ≠ w.sei.obuf.p → w'.sei.obuf.queue j = w.sei.obuf.queue j

namespace OpFrame

theorem refl (w : World) : OpFrame w w :=
  ⟨rfl, rfl, rfl, rfl, fun _ _ => rfl, rfl, rfl, fun _ _ => rfl, rfl, fun _ _ => rfl,
    fun _ _ => rfl, rfl, rfl, fun _ _ => rfl⟩

theorem trans {w1 w2 w3 : World} (h12 : OpFrame w1 w2) (h23 : OpFrame w2 w3) : OpFrame w1 w3 where
  p := h23.p.trans h12.p
  level := h23.level.trans h12.level
  cf := h23.cf.trans h12.cf
  ibuf := h23.ibuf.trans h12.ibuf
  cow j hj := (h23.cow j (by rwa [h12.p])).trans (h12.cow j hj)
  talloc_p := h23.talloc_p.trans h12.talloc_p
  talloc_level := h23.talloc_level.trans h12.talloc_level
  talloc_size j hj := (h23.talloc_size j (by rwa [h12.talloc_p])).trans (h12.talloc_size j hj)
  tbin_level := h23.tbin_level.trans h12.tbin_level
  tbin_nitems j hj := (h23.tbin_nitems j (by rwa [h12.p])).trans (h12.tbin_nitems j hj)
  wts_nitems j hj := (h23.wts_nitems j (by rwa [h12.p])).trans (h12.wts_nitems j hj)
  obuf_p := h23.obuf_p.trans h12.obuf_p
  obuf_level := h23.obuf_level.trans h12.obuf_level
  obuf_queue j hj := (h23.obuf_queue j (by rwa [h12.obuf_p])).trans (h12.obuf_queue j hj)

end OpFrame

section Steps

variable {env : Env} {b : Build} {w w' : World}

theorem write_opFrame {t : UIntTy} {addr value : Nat} (h : w.write b t addr value = .ok w') :
    OpFrame w w' := by
  simp only [World.write, bind_eq_ok, pure_eq_ok, Except.ok.injEq] at h
  obtain ⟨_, _, _, hbounds, rfl⟩ := h
  have hbounds := inBounds_eq_ok.mp hbounds
  exact { OpFrame.refl w with
    cow := fun j hj => Function.update_of_ne (by omega) _ _ }

theorem malloc_opFrame {size addr : Nat} (h : w.malloc env b size = .ok (addr, w')) :
    OpFrame w w' := by
  simp only [World.malloc, bind_eq_ok, pure_eq_ok, Except.ok.injEq, Prod.mk.injEq] at h
  obtain ⟨⟨_, talloc, machine⟩, hmalloc, _, rfl⟩ := h
  obtain ⟨_, _, hp, hlevel, hsize⟩ := Talloc.malloc_frame hmalloc
  exact { OpFrame.refl w with
    talloc_p := hp
    talloc_level := hlevel
    talloc_size := hsize }

theorem free_opFrame {ptr : Nat} (h : w.free b ptr = .ok w') : OpFrame w w' := by
  simp only [World.free, Tbin.add, bind_eq_ok, pure_eq_ok, Except.ok.injEq] at h
  obtain ⟨tbin, ⟨_, _, _, hbounds, _, _, _, _, rfl⟩, rfl⟩ := h
  have hbounds := inBounds_eq_ok.mp hbounds
  exact { OpFrame.refl w with
    tbin_nitems := fun j hj => Function.update_of_ne (by omega) _ _ }

theorem outputAppend_opFrame {ptr size : Nat} (h : w.outputAppend env b ptr size = .ok w') :
    OpFrame w w' := by
  unfold World.outputAppend at h
  split at h
  · cases h
    exact .refl w
  · simp only [Obuf.push, bind_eq_ok, pure_eq_ok, Except.ok.injEq] at h
    obtain ⟨obuf, ⟨q, _, rfl⟩, rfl⟩ := h
    exact { OpFrame.refl w with
      obuf_queue := fun j hj => Function.update_of_ne hj _ _ }

theorem outputDone_opFrame (h : w.outputDone b = .ok w') : OpFrame w w' := by
  unfold World.outputDone at h
  split at h
  · cases h
    exact .refl w
  · simp only [Obuf.done, bind_eq_ok, pure_eq_ok, Except.ok.injEq] at h
    obtain ⟨obuf, ⟨q, _, rfl⟩, rfl⟩ := h
    exact { OpFrame.refl w with
      obuf_queue := fun j hj => Function.update_of_ne hj _ _ }

theorem defer_opFrame {fp : Nat} {args : List Nat} (h : w.defer b fp args = .ok w') :
    OpFrame w w' := by
  simp only [World.defer, Wts.add, bind_eq_ok, pure_eq_ok, Except.ok.injEq] at h
  obtain ⟨wts, ⟨_, _, _, _, _, hbounds, _, _, _, _, _, _, rfl⟩, rfl⟩ := h
  have hbounds := inBounds_eq_ok.mp hbounds
  exact { OpFrame.refl w with
    wts_nitems := fun j hj => Function.update_of_ne (by omega) _ _ }

theorem call_opFrame {c : Call} (h : w.call env b c = .ok w') : OpFrame w w' := by
  cases c with
  | write t addr value => exact write_opFrame h
  | malloc size =>
    simp only [World.call, bind_eq_ok, pure_eq_ok, Except.ok.injEq] at h
    obtain ⟨⟨addr, w1⟩, hmalloc, rfl⟩ := h
    exact malloc_opFrame hmalloc
  | free ptr => exact free_opFrame h
  | outputAppend ptr size => exact outputAppend_opFrame h
  | outputDone => exact outputDone_opFrame h
  | defer fp args => exact defer_opFrame h

/-- Only an operation of its own kind changes the waitress, the trash bin or the allocations,
and none has an effect outside the process. -/
structure CallFrame (c : Call) (w w' : World) : Prop where
  wts : c.deferred? = none → w'.sei.wts = w.sei.wts
  tbin : c.freed? = none → w'.sei.tbin = w.sei.tbin
  talloc : c.malloced? = none → w'.sei.talloc = w.sei.talloc
  nalloc : c.malloced? = none → w'.machine.nalloc = w.machine.nalloc
  trace : w'.machine.trace = w.machine.trace

theorem CallFrame.refl (c : Call) (w : World) : CallFrame c w w :=
  ⟨fun _ => rfl, fun _ => rfl, fun _ => rfl, fun _ => rfl, rfl⟩

theorem call_frame {c : Call} (h : w.call env b c = .ok w') : CallFrame c w w' := by
  cases c with
  | write t addr value =>
    simp only [World.call, World.write, bind_eq_ok, pure_eq_ok, Except.ok.injEq] at h
    obtain ⟨_, _, _, _, rfl⟩ := h
    exact { CallFrame.refl _ w with }
  | malloc size =>
    simp only [World.call, World.malloc, bind_eq_ok, pure_eq_ok, Except.ok.injEq] at h
    obtain ⟨_, ⟨⟨addr, t, m⟩, hmalloc, rfl⟩, rfl⟩ := h
    refine { CallFrame.refl _ w with
      talloc := fun hc => absurd hc (Option.some_ne_none _)
      nalloc := fun hc => absurd hc (Option.some_ne_none _)
      trace := ?_ }
    exact (Talloc.malloc_frame hmalloc).2.1
  | free ptr =>
    simp only [World.call, World.free, bind_eq_ok, pure_eq_ok, Except.ok.injEq] at h
    obtain ⟨_, _, rfl⟩ := h
    exact { CallFrame.refl _ w with tbin := fun hc => absurd hc (Option.some_ne_none _) }
  | outputAppend ptr size =>
    simp only [World.call, World.outputAppend] at h
    split at h
    · cases h
      exact .refl _ w
    · simp only [bind_eq_ok, pure_eq_ok, Except.ok.injEq] at h
      obtain ⟨_, _, rfl⟩ := h
      exact { CallFrame.refl _ w with }
  | outputDone =>
    simp only [World.call, World.outputDone] at h
    split at h
    · cases h
      exact .refl _ w
    · simp only [bind_eq_ok, pure_eq_ok, Except.ok.injEq] at h
      obtain ⟨_, _, rfl⟩ := h
      exact { CallFrame.refl _ w with }
  | defer fp args =>
    simp only [World.call, World.defer, bind_eq_ok, pure_eq_ok, Except.ok.injEq] at h
    obtain ⟨_, _, rfl⟩ := h
    exact { CallFrame.refl _ w with wts := fun hc => absurd hc (Option.some_ne_none _) }

theorem calls_opFrame {cs : List Call} (h : World.calls env b cs w = .ok w') : OpFrame w w' := by
  induction cs generalizing w with
  | nil =>
    cases h
    exact .refl _
  | cons c cs ih =>
    rw [World.calls, bind_eq_ok] at h
    obtain ⟨w1, hc, hrest⟩ := h
    exact (call_opFrame hc).trans (ih hrest)

end Steps

end World

end LibSei
