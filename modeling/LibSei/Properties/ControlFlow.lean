-- SUMMARY: What the control-flow gate in `sei_commit` rejects, over all sequences of begin, switch and commit.
import LibSei.ModeCow.Commit
import LibSei.ModeCow.Frame

/-!
# The control-flow gate

`cfc_alog` and `cfc_amog` are called for all phases in one loop of `sei_commit`, not by
the phases themselves. The flags they look at were reset by `sei_begin`. So the gate
tells a second commit from a first one, and nothing else: how many phases have run does
not enter into it.
-/

namespace LibSei

open Memory Control

namespace World

/-- What a control-flow error can make the program do next. -/
inductive Control where
  | begin
  | body (cs : List Call)
  | switch
  | commit
  deriving DecidableEq, Repr

def control (env : Env) (b : Build) (w : World) : Control → Exec World
  | .begin => return w.beginPhase
  | .body cs => calls env b cs w
  | .switch => w.switch env b
  | .commit => w.commit env b

def controls (env : Env) (b : Build) : List Control → World → Exec World
  | [], w => return w
  | c :: cs, w => do
      let w ← w.control env b c
      controls env b cs w

/-- What the sequence did since the last `sei_begin` that began a transaction: the number of
switches, and whether a `sei_commit` was made. -/
structure Since where
  switches : Nat
  committed : Bool
  deriving DecidableEq, Repr

def Since.next (s : Since) : Control → Since
  -- inside a transaction `sei_begin` has no effect
  | .begin => if s.committed then ⟨0, false⟩ else s
  | .body _ => s
  | .switch => { s with switches := s.switches + 1 }
  | .commit => { s with committed := true }

/-- The account of a sequence that follows a `sei_begin`. -/
def sinceBegin (cs : List Control) : Since := cs.foldl Since.next ⟨0, false⟩

/-- The verification in `sei_commit` lets the phases through: neither the gate nor the check
after the heavy operations finds an error. -/
def GatePasses (w : World) : Prop :=
  (gates w.sei.redundancyLevel 0 w.sei.cf).1 = true ∧
    ∀ i < w.sei.redundancyLevel, ((gates w.sei.redundancyLevel 0 w.sei.cf).2 i).check = true

/-! ## The flags -/

section Gates

variable {n i : Nat} {cf : Nat → Cfc}

/-- Flags that were reset pass, and are set afterwards. -/
theorem gates_of_reset (h : ∀ j, i ≤ j → j < i + n → cf j = Cfc.reset) :
    (gates n i cf).1 = true ∧
      ∀ j, i ≤ j → j < i + n → ((gates n i cf).2 j).scf = CfcFlag.set := by
  induction n generalizing i cf with
  | zero => exact ⟨rfl, fun j hlo hhi => by omega⟩
  | succ n ih =>
    have hi : cf i = Cfc.reset := h i (by omega) (by omega)
    have hgate : (cf i).gate.1 = true := by
      rw [hi]
      rfl
    obtain ⟨hrest, hset⟩ := @ih (i + 1) (Function.update cf i (cf i).gate.2)
      fun j hlo hhi => by
        rw [Function.update_of_ne (by omega)]
        exact h j (by omega) (by omega)
    rw [gates_succ, if_pos hgate]
    refine ⟨hrest, fun j hlo hhi => ?_⟩
    rcases Nat.eq_or_lt_of_le hlo with rfl | hlt
    · rw [gates_of_outside (by omega), Function.update_self, hi]
      rfl
    · exact hset j hlt (by omega)

/-- A flag that is still set stops the gate. -/
theorem gates_of_set (hn : 0 < n) (h : (cf i).scf = CfcFlag.set) : (gates n i cf).1 = false := by
  obtain ⟨n, rfl⟩ := Nat.exists_eq_succ_of_ne_zero (by omega : n ≠ 0)
  have hgate : (cf i).gate.1 = false := by
    simp [Cfc.gate, Cfc.amog, Cfc.alog, h]
  rw [gates_succ, if_neg (by rw [hgate]; decide)]

end Gates

/-! ## Sequences of control -/

/-- Where the flags stand after a sequence: open since a `sei_begin`, or closed by a `sei_commit`. -/
structure GateState (n : Nat) (s : Since) (w : World) : Prop where
  level : w.sei.redundancyLevel = n
  opened : s.committed = false → w.sei.p ≠ -1 ∧ ∀ i < n, w.sei.cf i = Cfc.reset
  closed : s.committed = true → w.sei.p = -1 ∧ ∀ i < n, (w.sei.cf i).scf = CfcFlag.set

section Control

variable {env : Env} {b : Build} {n : Nat} {s : Since} {w0 w w' : World} {cs : List Control}

theorem switch_control (h : w.switch env b = .ok w') :
    0 ≤ w.sei.p ∧ w'.sei.p = w.sei.p + 1 ∧ w'.sei.cf = w.sei.cf ∧
      w'.sei.redundancyLevel = w.sei.redundancyLevel := by
  simp only [World.switch, bind_eq_ok, pure_eq_ok, Except.ok.injEq] at h
  obtain ⟨_, _, _, _, _, hbounds, _, _, rfl⟩ := h
  have hbounds := inBounds_eq_ok.mp hbounds
  exact ⟨by omega, rfl, rfl, rfl⟩

/-- A commit that comes to its end has passed the gate. -/
theorem commit_control (hiso : b.cpuIsolation = false) (h : w.commit env b = .ok w') :
    (gates w.sei.redundancyLevel 0 w.sei.cf).1 = true ∧
      w'.sei.cf = (gates w.sei.redundancyLevel 0 w.sei.cf).2 ∧ w'.sei.p = -1 ∧
      w'.sei.redundancyLevel = w.sei.redundancyLevel := by
  simp only [commit, commitVerify, hiso, Bool.false_eq_true, if_false, bind_eq_ok, pure_eq_ok,
    Except.ok.injEq] at h
  obtain ⟨_, ⟨_, hgate, _, _, rfl⟩, _, _, _, _, _, _, _, _, _, _, _, _, rfl⟩ := h
  exact ⟨failIfn_eq_ok.mp hgate, rfl, rfl, rfl⟩

/-- `sei_begin` between transactions opens the gate. -/
theorem gateState_begin (hp : w.sei.p = -1) (hn : w.sei.redundancyLevel = n) :
    GateState n ⟨0, false⟩ w.beginPhase := by
  rw [beginPhase, if_pos hp]
  refine ⟨hn, fun _ => ⟨(by decide : (0 : Int) ≠ -1), fun i hi => ?_⟩, fun h => Bool.noConfusion h⟩
  simp only [hn, if_pos hi]

/-- One step of control. A switch or a commit that the gate state forbids does not return. -/
theorem GateState.control (h : GateState n s w) (hn : 0 < n) (hiso : b.cpuIsolation = false)
    {c : Control} (hrun : w.control env b c = .ok w') : GateState n (s.next c) w' := by
  cases c with
  | begin =>
    cases hrun
    cases hs : s.committed with
    | false =>
      rw [beginPhase, if_neg (h.opened hs).1, Since.next, if_neg (by rw [hs]; decide)]
      exact h
    | true =>
      rw [Since.next, if_pos hs]
      exact gateState_begin (h.closed hs).1 h.level
  | body cs =>
    have hframe := calls_opFrame hrun
    exact ⟨hframe.level.trans h.level, by rw [hframe.p, hframe.cf]; exact h.opened,
      by rw [hframe.p, hframe.cf]; exact h.closed⟩
  | switch =>
    obtain ⟨hge, hp, hcf, hlevel⟩ := switch_control hrun
    refine ⟨hlevel.trans h.level, fun hs => ⟨by omega, ?_⟩, fun hs => ?_⟩
    · rw [hcf]
      exact (h.opened hs).2
    · have hclosed := (h.closed hs).1
      omega
  | commit =>
    obtain ⟨hgate, hcf, hp, hlevel⟩ := commit_control hiso hrun
    rw [h.level] at hgate hcf
    refine ⟨hlevel.trans h.level, fun hs => Bool.noConfusion hs, fun _ => ⟨hp, ?_⟩⟩
    cases hs : s.committed with
    | false =>
      obtain ⟨_, hset⟩ := gates_of_reset (n := n) (i := 0)
        fun j _ hj => (h.opened hs).2 j (by omega)
      intro i hi
      rw [hcf]
      exact hset i (Nat.zero_le i) (by omega)
    | true =>
      rw [gates_of_set hn ((h.closed hs).2 0 hn)] at hgate
      exact Bool.noConfusion hgate

theorem GateState.controls (h : GateState n s w) (hn : 0 < n) (hiso : b.cpuIsolation = false)
    (hrun : World.controls env b cs w = .ok w') : GateState n (cs.foldl Since.next s) w' := by
  induction cs generalizing s w with
  | nil =>
    cases hrun
    exact h
  | cons c cs ih =>
    rw [World.controls, bind_eq_ok] at hrun
    obtain ⟨w1, hc, hrest⟩ := hrun
    exact ih (h.control hn hiso hc) hrest

/-- The gate passes exactly when no commit has been made since the transaction began. -/
theorem GateState.gatePasses_iff (h : GateState n s w) (hn : 0 < n) :
    w.GatePasses ↔ s.committed = false := by
  constructor
  · rintro ⟨hgate, _⟩
    rw [h.level] at hgate
    by_contra hs
    rw [gates_of_set hn ((h.closed (by simpa using hs)).2 0 hn)] at hgate
    exact Bool.noConfusion hgate
  · intro hs
    obtain ⟨hgate, _⟩ := gates_of_reset (n := n) (i := 0)
      fun j _ hj => (h.opened hs).2 j (by omega)
    rw [GatePasses, h.level]
    exact ⟨hgate, fun i hi => check_of_gates hgate i (Nat.zero_le i) (by omega)⟩

/-- After any sequence of control that follows a `sei_begin`, the verification in `sei_commit`
vouches for `n - 1` switches only if these were made anyway, or a commit was made before. -/
theorem gatePasses_imp_switches_iff (hiso : b.cpuIsolation = false) (hp : w0.sei.p = -1)
    (hlevel : w0.sei.redundancyLevel = n) (hn : 2 ≤ n)
    (hrun : World.controls env b cs w0.beginPhase = .ok w) :
    (w.GatePasses → (sinceBegin cs).switches = n - 1) ↔
      (sinceBegin cs).committed = true ∨ (sinceBegin cs).switches = n - 1 := by
  have hstate : GateState n (sinceBegin cs) w :=
    (gateState_begin hp hlevel).controls (by omega) hiso hrun
  rw [hstate.gatePasses_iff (by omega), ← Bool.not_eq_true]
  exact Decidable.imp_iff_not_or.trans (or_congr Decidable.not_not Iff.rfl)

/-- Two phases and the switch between them. -/
theorem gatePasses_of_oneSwitch :
    ∃ w, World.controls Env.plain (Build.twoWay true false)
        [.body [.write .uint8 0 1], .switch, .body [.write .uint8 0 1]]
        (World.init (Build.twoWay true false) fun _ => 0).beginPhase = .ok w ∧
      (w.GatePasses → (sinceBegin [.body [.write .uint8 0 1], .switch,
        .body [.write .uint8 0 1]]).switches = 2 - 1) := by
  obtain ⟨w, hrun⟩ : ∃ w, World.controls Env.plain (Build.twoWay true false)
      [.body [.write .uint8 0 1], .switch, .body [.write .uint8 0 1]]
      (World.init (Build.twoWay true false) fun _ => 0).beginPhase = .ok w := ⟨_, rfl⟩
  exact ⟨w, hrun, (gatePasses_imp_switches_iff rfl rfl rfl (by decide) hrun).mpr (.inr rfl)⟩

/-- A commit entered from phase 0, without any switch, passes the gate and comes to its
end. -/
theorem gatePasses_noSwitch :
    ∃ w w', World.controls Env.plain (Build.twoWay true false) [.body [.write .uint8 0 0]]
        (World.init (Build.twoWay true false) fun _ => 0).beginPhase = .ok w ∧
      w.GatePasses ∧ (sinceBegin [.body [.write .uint8 0 0]]).switches = 0 ∧
      w.commit Env.plain (Build.twoWay true false) = .ok w' := by
  refine ⟨_, _, rfl, ⟨rfl, fun i hi => ?_⟩, rfl, rfl⟩
  have hi : i < 2 := hi
  interval_cases i <;> rfl

end Control

end World

end LibSei
