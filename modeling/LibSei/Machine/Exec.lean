-- SUMMARY: Executions that may stop: the build configuration, assertions, fail_ifn and array bounds.
import LibSei.Control.Loop

/-!
# Executions

The library stops a process in several ways, and which of them are compiled in
depends on the build. A run is an `Except` value: it returns, or it stops with
the reason. An access outside an array has no defined meaning in C and is kept
apart from every way of stopping the library provides.
-/

namespace LibSei

/-- Why a run did not return. -/
inductive Stop where
  /-- `SEI_FAIL`: a message on stderr, then `exit(EXIT_FAILURE)`. `fail_ifn` ends here. -/
  | fail (fmt : String) (args : List Nat)
  /-- A failed `assert`. -/
  | assertion (text : String)
  /-- A call of `abort`. -/
  | abort (text : String)
  /-- An access outside an array. -/
  | outOfBounds (array : String)
  deriving DecidableEq, Repr

/-- A run that returns an `α` or stops. -/
abbrev Exec (α : Type) := Except Stop α

/-- `SEI_DMR_MAX_REDUNDANCY`. -/
def maxRedundancy : Nat := 10

/-- The compile-time configuration. The bounds on `SEI_DMR_REDUNDANCY` are the
ones the preprocessor checks. -/
structure Build where
  /-- `NDEBUG`: `assert` is compiled out. -/
  ndebug : Bool
  /-- `SEI_CPU_ISOLATION`, set by `ROLLBACK=1`. -/
  cpuIsolation : Bool
  /-- `SEI_DMR_REDUNDANCY`. -/
  redundancy : Nat
  two_le : 2 ≤ redundancy
  le_max : redundancy ≤ maxRedundancy

/-- A build with `EXECUTION_REDUNDANCY=2`, the default. -/
def Build.twoWay (ndebug cpuIsolation : Bool) : Build :=
  ⟨ndebug, cpuIsolation, 2, by decide, by decide⟩

/-- A build with `EXECUTION_REDUNDANCY=3`. -/
def Build.threeWay (ndebug cpuIsolation : Bool) : Build :=
  ⟨ndebug, cpuIsolation, 3, by decide, by decide⟩

/-- A build with `EXECUTION_REDUNDANCY=4`. -/
def Build.fourWay (ndebug cpuIsolation : Bool) : Build :=
  ⟨ndebug, cpuIsolation, 4, by decide, by decide⟩

/-- `assert`. -/
def Build.assert (b : Build) (c : Prop) [Decidable c] (text : String) : Exec Unit :=
  Control.require (b.ndebug = true ∨ c) (.assertion text)

/-- `fail_ifn`. -/
def failIfn (c : Prop) [Decidable c] (msg : String) : Exec Unit :=
  Control.require c (.fail msg [])

/-- The bounds of an array access. -/
def inBounds (c : Prop) [Decidable c] (array : String) : Exec Unit :=
  Control.require c (.outOfBounds array)

section Guards

variable {b : Build} {c : Prop} [Decidable c]

theorem Build.assert_eq_ok {text : String} {u : Unit} :
    b.assert c text = .ok u ↔ b.ndebug = true ∨ c := Control.require_eq_ok

theorem failIfn_eq_ok {msg : String} {u : Unit} : failIfn c msg = .ok u ↔ c :=
  Control.require_eq_ok

theorem failIfn_eq_error {msg : String} {e : Stop} :
    failIfn c msg = .error e ↔ ¬ c ∧ e = .fail msg [] := Control.require_eq_error

theorem inBounds_eq_ok {array : String} {u : Unit} : inBounds c array = .ok u ↔ c :=
  Control.require_eq_ok

theorem Build.assert_of_or {text : String} (h : b.ndebug = true ∨ c) :
    b.assert c text = .ok () := Control.require_of h

/-- With `NDEBUG` an assertion never stops a run. -/
theorem Build.assert_of_ndebug {text : String} (h : b.ndebug = true) :
    b.assert c text = .ok () := Build.assert_of_or (.inl h)

theorem Build.assert_of {text : String} (h : c) : b.assert c text = .ok () :=
  Build.assert_of_or (.inr h)

theorem failIfn_of {msg : String} (h : c) : failIfn c msg = .ok () := Control.require_of h

theorem inBounds_of {array : String} (h : c) : inBounds c array = .ok () :=
  Control.require_of h

theorem Build.assert_ne_outOfBounds {text array : String} :
    b.assert c text ≠ .error (.outOfBounds array) := Control.require_ne_error fun h => by cases h

theorem failIfn_ne_outOfBounds {msg array : String} :
    failIfn c msg ≠ .error (.outOfBounds array) := Control.require_ne_error fun h => by cases h

/-- A run that goes out of bounds has passed the assertions in front. -/
theorem Build.assert_bind_eq_outOfBounds {α : Type} {text array : String} {x : Unit → Exec α} :
    (b.assert c text >>= x) = .error (.outOfBounds array) ↔
      (b.ndebug = true ∨ c) ∧ x () = .error (.outOfBounds array) := by
  rw [Control.seq_eq_error, or_iff_right Build.assert_ne_outOfBounds, Build.assert_eq_ok]

end Guards

/-! ## Stopping through SEI_FAIL -/

/-- The stop is the library's own report of a detected error. -/
def Stop.IsFail : Stop → Prop
  | .fail _ _ => True
  | _ => False

/-- The run ends in `SEI_FAIL`. -/
def Exec.Fails {α : Type} (x : Exec α) : Prop := ∃ e, e.IsFail ∧ x = .error e

section Fails

variable {α β : Type} {c : Prop} [Decidable c]

@[simp] theorem Exec.fails_ok (a : α) : Exec.Fails (.ok a : Exec α) ↔ False := by
  simp [Exec.Fails]

@[simp] theorem Exec.fails_error (e : Stop) : Exec.Fails (.error e : Exec α) ↔ e.IsFail := by
  simp [Exec.Fails]

theorem Exec.fails_bind {x : Exec α} {f : α → Exec β} :
    Exec.Fails (x >>= f) ↔ Exec.Fails x ∨ ∃ a, x = .ok a ∧ Exec.Fails (f a) := by
  cases x <;> simp

@[simp] theorem fails_failIfn {msg : String} : Exec.Fails (failIfn c msg) ↔ ¬ c := by
  by_cases h : c <;> simp [failIfn, Control.require, h, Stop.IsFail]

@[simp] theorem fails_inBounds {array : String} : Exec.Fails (inBounds c array) ↔ False := by
  by_cases h : c <;> simp [inBounds, Control.require, h, Stop.IsFail]

@[simp] theorem Build.fails_assert {b : Build} {text : String} :
    Exec.Fails (b.assert c text) ↔ False := by
  by_cases h : b.ndebug = true ∨ c <;> simp [Build.assert, Control.require, h, Stop.IsFail]

end Fails

/-! ## Functions that answer 0 or 1 -/

/-- How the body of a checking function is left before its last statement. -/
inductive Exit where
  /-- The process stops. -/
  | stop (s : Stop)
  /-- `return 0`. -/
  | returnZero
  deriving DecidableEq, Repr

/-- The body of a function that ends in `return 1` when none of its checks fails. -/
abbrev Checks (α : Type) := Except Exit α

namespace Checks

variable {α : Type}

/-- Leave with `return 0` unless `c` holds. -/
def unlessReturnZero (c : Prop) [Decidable c] : Checks Unit := Control.require c .returnZero

/-- A part of the body that may only stop the process. -/
def ofExec : Exec α → Checks α
  | .ok a => .ok a
  | .error s => .error (.stop s)

/-- The value the function returns. -/
def verdict : Checks Unit → Exec Bool
  | .ok _ => .ok true
  | .error .returnZero => .ok false
  | .error (.stop s) => .error s

theorem unlessReturnZero_eq_ok {c : Prop} [Decidable c] {u : Unit} :
    unlessReturnZero c = .ok u ↔ c := Control.require_eq_ok

theorem ofExec_eq_ok {x : Exec α} {a : α} : ofExec x = .ok a ↔ x = .ok a := by
  cases x <;> simp [ofExec]

theorem verdict_eq_true {x : Checks Unit} : verdict x = .ok true ↔ x = .ok () := by
  rcases x with (s | _) | _ <;> simp [verdict]

/-! ### Reasons the process does not stop for -/

variable {s : Stop}

theorem unlessReturnZero_ne_stop {c : Prop} [Decidable c] :
    unlessReturnZero c ≠ .error (.stop s) := Control.require_ne_error fun h => by cases h

theorem ofExec_ne_stop {x : Exec α} (h : x ≠ .error s) : ofExec x ≠ .error (.stop s) := by
  intro hstop
  cases x with
  | ok a => cases hstop
  | error s' =>
    cases hstop
    exact h rfl

theorem verdict_ne_error {x : Checks Unit} (h : x ≠ .error (.stop s)) : verdict x ≠ .error s := by
  intro hstop
  rcases x with (s' | _) | _
  · cases hstop
    exact h rfl
  · cases hstop
  · cases hstop

end Checks

end LibSei
