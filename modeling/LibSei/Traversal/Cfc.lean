-- SUMMARY: Control-flow flags `cfc`: the at-most-once and at-least-once gates each phase passes at commit.
import LibSei.Machine.Exec

/-!
# Control-flow flags

One structure per phase. `cfc_alog` marks that the phase reached its gate, `cfc_amog`
lets it through once, and `cfc_check` asks afterwards whether it was marked.
-/

namespace LibSei

/-- `cfc_flag_t`. -/
inductive CfcFlag where
  | set | reset
  deriving DecidableEq, Repr

/-- `struct cfc`. -/
@[ext] structure Cfc where
  scf : CfcFlag
  rcf : CfcFlag
  lscf : CfcFlag
  lrcf : CfcFlag
  deriving DecidableEq, Repr

namespace Cfc

/-- What `cfc_reset` leaves. -/
def reset : Cfc := ⟨.reset, .reset, .reset, .reset⟩

/-- `cfc_alog`. -/
def alog (c : Cfc) : Cfc := { c with lscf := .set, lrcf := .set }

/-- `cfc_amog`. -/
def amog (c : Cfc) : Bool × Cfc :=
  if c.scf ≠ c.rcf ∨ c.scf ≠ .reset then (false, c)
  else (true, { c with scf := .set, rcf := .set })

/-- `cfc_check`. -/
def check (c : Cfc) : Bool := !(c.lscf ≠ c.lrcf || c.lscf ≠ .set)

/-- The gate: logged, then let through at most once. -/
def gate (c : Cfc) : Bool × Cfc := c.alog.amog

/-- A structure that was logged at the gate passes the check. -/
theorem check_gate {c : Cfc} : c.gate.2.check = true := by
  unfold gate amog
  split <;> simp [alog, check]

end Cfc

end LibSei
