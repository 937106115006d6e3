-- SUMMARY: Undo logs over an arbitrary state: exchanging the entries newest first restores the state and leaves a redo log.
import Mathlib.Logic.Function.Basic

/-!
# Undo logs

A log records, for each update of a state, the cell it updated and the value the
cell held before. Exchanging the entries with the state, newest first, takes the
updates back and leaves in each entry the value its update had put there. The
state, the cells and the values are arbitrary; all that is needed of them is that
putting back what a cell held undoes an update of that cell.
-/

namespace UndoLog

variable {σ ι β : Type} (get : ι → σ → β) (put : ι → β → σ → σ)

/-- Exchange entries `k - 1, …, 0` of a log with the state, in this order. -/
def exchange : Nat → (Nat → ι × β) → σ → (Nat → ι × β) × σ
  | 0, log, s => (log, s)
  | k + 1, log, s =>
      exchange k (Function.update log k ((log k).1, get (log k).1 s)) (put (log k).1 (log k).2 s)

/-- The first `k` entries of `log` record the updates that led through the states
`st 0, …, st k`: entry `i` names the cell updated by step `i` and holds what the
cell held before. -/
structure Records (log : Nat → ι × β) (st : Nat → σ) (k : Nat) : Prop where
  old : ∀ i < k, (log i).2 = get (log i).1 (st i)
  step : ∀ i < k, ∃ v, st (i + 1) = put (log i).1 v (st i)

variable {get put} {log : Nat → ι × β} {st : Nat → σ} {k : Nat}

theorem Records.update (h : Records get put log st (k + 1)) (e : ι × β) :
    Records get put (Function.update log k e) st k where
  old i hi := by
    rw [Function.update_of_ne (by omega)]
    exact h.old i (by omega)
  step i hi := by
    rw [Function.update_of_ne (by omega)]
    exact h.step i (by omega)

/-- Entries at or above `k` are not exchanged. -/
theorem exchange_above {s : σ} {i : Nat} (hi : k ≤ i) :
    (exchange get put k log s).1 i = log i := by
  induction k generalizing log s with
  | zero => rfl
  | succ k ih =>
    rw [exchange, ih (by omega), Function.update_of_ne (by omega)]

variable (hundo : ∀ c v s, put c (get c s) (put c v s) = s)
include hundo

/-- Putting back the newest recorded value leads to the state before it. -/
private theorem Records.put_back (h : Records get put log st (k + 1)) :
    put (log k).1 (log k).2 (st (k + 1)) = st k := by
  obtain ⟨v, hv⟩ := h.step k (by omega)
  rw [hv, h.old k (by omega), hundo]

/-- Exchanging a whole log restores the state it started from. -/
theorem exchange_state (h : Records get put log st k) :
    (exchange get put k log (st k)).2 = st 0 := by
  induction k generalizing log with
  | zero => rfl
  | succ k ih =>
    rw [exchange, h.put_back hundo]
    exact ih (h.update _)

/-- After the exchange entry `i` holds what its cell held right after step `i`. -/
theorem exchange_log (h : Records get put log st k) {i : Nat} (hi : i < k) :
    (exchange get put k log (st k)).1 i = ((log i).1, get (log i).1 (st (i + 1))) := by
  induction k generalizing log with
  | zero => omega
  | succ k ih =>
    rw [exchange, h.put_back hundo]
    rcases Nat.lt_succ_iff_lt_or_eq.mp hi with hlt | rfl
    · rw [ih (h.update _) hlt, Function.update_of_ne (by omega)]
    · rw [exchange_above (Nat.le_refl _), Function.update_self]

end UndoLog
