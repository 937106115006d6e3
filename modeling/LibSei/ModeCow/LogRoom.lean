-- SUMMARY: Handlers whose writes check the room in the log: they run as if there were room, or stop where there is none.
import LibSei.Abuf.Capacity
import LibSei.ModeCow.Frame

/-!
# Room in the logs

The operations of a phase push to a log that is taken to have room. Here they are run with
`SEI_WRITE` as it is, which stops the process when the log of the phase cannot grow. Such a run is
the other one, or it has ended there; and a phase that makes no more writes than its log has room
for never notices.
-/

namespace LibSei

open Memory Control

namespace World

variable (env : Env) (b : Build)

/-- An operation of a phase, with the check of `SEI_WRITE`. -/
def seiCall (w : World) : Call → Exec World
  | .write t addr value => w.seiWrite b t addr value
  | c => w.call env b c

def seiCalls : List Call → World → Exec World
  | [], w => return w
  | c :: cs, w => do
      let w ← w.seiCall env b c
      seiCalls cs w

variable {env b} {w : World} {k : Nat}

/-- A run that was stopped by a full log, or ran as the other. -/
def StopsOrIs (x y : Exec World) : Prop := x = y ∨ x = .error (.fail "no space left" [])

theorem StopsOrIs.bind {x y : Exec World} {f g : World → Exec World} (h : StopsOrIs x y)
    (hf : ∀ w, StopsOrIs (f w) (g w)) : StopsOrIs (x >>= f) (y >>= g) := by
  rcases h with rfl | rfl
  · cases x with
    | error e => exact .inl rfl
    | ok w => exact hf w
  · exact .inr rfl

/-- With `SEI_WRITE` as it is, a write is the one to a log with room, or stops. -/
theorem stopsOrIs_seiWrite (w : World) (t : UIntTy) (addr value : Nat) :
    StopsOrIs (w.seiWrite b t addr value) (w.write b t addr value) := by
  rw [seiWrite, write]
  by_cases hassert : b.ndebug = true ∨ 0 ≤ w.sei.p ∧ w.sei.p < b.redundancy
  · rw [(Build.assert_eq_ok (u := ())).mpr hassert, ok_bind, ok_bind]
    by_cases hbounds : 0 ≤ w.sei.p ∧ w.sei.p < maxRedundancy
    · rw [inBounds_of hbounds, ok_bind, ok_bind, Abuf.pushType_eq]
      split
      · exact .inl rfl
      · exact .inr rfl
    · rw [inBounds, require_of_not hbounds]
      exact .inl rfl
  · rw [Build.assert, require_of_not hassert]
    exact .inl rfl

theorem stopsOrIs_seiCall (w : World) (c : Call) : StopsOrIs (w.seiCall env b c) (w.call env b c) := by
  cases c with
  | write t addr value => exact stopsOrIs_seiWrite w t addr value
  | _ => exact .inl rfl

theorem stopsOrIs_seiCalls (cs : List Call) (w : World) :
    StopsOrIs (seiCalls env b cs w) (calls env b cs w) := by
  induction cs generalizing w with
  | nil => exact .inl rfl
  | cons c cs ih => exact (stopsOrIs_seiCall w c).bind ih

/-- However far the phases of a transaction have come, they have come there as with logs that have
room, or a full log has stopped the process. -/
theorem stopsOrIs_phaseStart (phases : Nat → List Call) (w : World) (k : Nat) :
    StopsOrIs (phaseStart env b (fun j => seiCalls env b (phases j)) w k)
      (phaseStart env b (fun j => calls env b (phases j)) w k) := by
  induction k with
  | zero => exact .inl rfl
  | succ k ih =>
    exact ih.bind fun w => (stopsOrIs_seiCalls (phases k) w).bind fun w => .inl rfl

/-! ## Enough room -/

/-- An operation other than a write leaves the logs alone. -/
theorem call_cow {c : Call} {w' : World} (hc : c.toWrite? = none) (h : w.call env b c = .ok w') :
    w'.sei.cow = w.sei.cow := by
  cases c with
  | write t addr value => cases hc
  | malloc size =>
    simp only [World.call, World.malloc, bind_eq_ok, pure_eq_ok, Except.ok.injEq] at h
    obtain ⟨_, ⟨_, _, rfl⟩, rfl⟩ := h
    rfl
  | free ptr =>
    simp only [World.call, World.free, bind_eq_ok, pure_eq_ok, Except.ok.injEq] at h
    obtain ⟨_, _, rfl⟩ := h
    rfl
  | outputAppend ptr size =>
    simp only [World.call, World.outputAppend] at h
    split at h
    · cases h
      rfl
    · simp only [bind_eq_ok, pure_eq_ok, Except.ok.injEq] at h
      obtain ⟨_, _, rfl⟩ := h
      rfl
  | outputDone =>
    simp only [World.call, World.outputDone] at h
    split at h
    · cases h
      rfl
    · simp only [bind_eq_ok, pure_eq_ok, Except.ok.injEq] at h
      obtain ⟨_, _, rfl⟩ := h
      rfl
  | defer fp args =>
    simp only [World.call, World.defer, bind_eq_ok, pure_eq_ok, Except.ok.injEq] at h
    obtain ⟨_, _, rfl⟩ := h
    rfl

/-- A phase that makes no more writes than its log has room for runs as if it always had. -/
theorem seiCalls_eq_calls {c : Nat} {cs : List Call} (hp : w.sei.p = k) (hk : k < b.redundancy)
    (hc : 0 < c) (hlt : c < 2 ^ 31) (hgrown : Abuf.Grown c (w.sei.cow k).maxSize)
    (hroom : (w.sei.cow k).pushed + (writesOf cs).length ≤ Abuf.limit c) :
    seiCalls env b cs w = calls env b cs w := by
  induction cs generalizing w with
  | nil => rfl
  | cons call cs ih =>
    rw [seiCalls, calls]
    cases hwrite : call.toWrite? with
    | none =>
      have hsame : w.seiCall env b call = w.call env b call := by
        cases call with
        | write t addr value => cases hwrite
        | _ => rfl
      rw [hsame]
      cases hrun : w.call env b call with
      | error e => rfl
      | ok w' =>
        have hcow := call_cow hwrite hrun
        refine ih ((call_opFrame hrun).p.trans hp) (hcow ▸ hgrown) ?_
        rw [hcow]
        rwa [writesOf, List.filterMap_cons_none hwrite] at hroom
    | some x =>
      cases call with
      | write t addr value =>
        rw [writesOf, List.filterMap_cons_some hwrite, List.length_cons] at hroom
        have hfits : (w.sei.cow k).HasRoom := (hgrown.hasRoom_iff hc hlt).mpr (by omega)
        rw [seiCall, World.call, seiWrite_eq hp hk, if_pos hfits, write_eq hp hk, ok_bind, ok_bind]
        have hself : (w.logWrite k t addr value).sei.cow k =
            (w.sei.cow k).push t addr (load w.mem addr t.sizeof) := Function.update_self _ _ _
        refine ih hp (hself ▸ hgrown.push hfits) ?_
        rw [hself, Abuf.push_pushed, writesOf]
        omega
      | _ => cases hwrite

end World

end LibSei
