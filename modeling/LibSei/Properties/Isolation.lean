-- SUMMARY: Phase isolation: every phase of a deterministic handler runs as one execution on the memory of `sei_begin`.
import LibSei.Abuf.Logs
import LibSei.ModeCow.Handler

/-!
# Phase isolation

The phases of a fault-free transaction cannot tell that there is more than one of
them: each runs on the memory the transaction began with, and the last one leaves
what a single execution leaves.
-/

namespace LibSei

open Memory Control

/-- A handler run in the `n` phases of a transaction begun in `w0` behaves in each of them
as in one execution on the memory of `w0`. -/
structure Isolated (env : Env) (b : Build) (n : Nat) (w0 : World) (h : Handler) : Prop where
  /-- Phase `k` starts on the memory of `w0`, makes the accesses of one execution with the
  same values read, and logs the locations of its writes. When the phase is left, entry
  `i` of its log holds what its `i`-th write wrote. -/
  phase : ∀ k < n, ∃ w w',
    World.handlerStart env b h w0 k = .ok w ∧ w.mem = w0.mem ∧
    h.run b w = .ok ((h.exec w0.mem).1, w') ∧
    (w'.sei.cow k).Shaped (accessWrites (h.exec w0.mem).1) ∧
    (k + 1 < n → ∃ w'', w'.switch env b = .ok w'' ∧
      World.handlerStart env b h w0 (k + 1) = .ok w'' ∧
      (w''.sei.cow k).Holds (accessWrites (h.exec w0.mem).1))
  /-- The last phase leaves the memory of one execution. -/
  final : ∃ w, World.handlerEnd env b h w0 = .ok w ∧ w.mem = (h.exec w0.mem).2

section Isolation

variable {env : Env} {b : Build} {n : Nat} {w0 : World}

/-- One phase of a deterministic handler, from its start to the start of the next. -/
private theorem phase_of_idle (hidle : w0.Idle b n) (h : Handler) {k : Nat} (hk : k < n) :
    ∃ w w',
      World.handlerStart env b h w0 k = .ok w ∧ w.mem = w0.mem ∧
      h.run b w = .ok ((h.exec w0.mem).1, w') ∧
      (w'.sei.cow k).Shaped (accessWrites (h.exec w0.mem).1) ∧
      (k + 1 < n → ∃ w'', w'.switch env b = .ok w'' ∧
        World.handlerStart env b h w0 (k + 1) = .ok w'' ∧
        (w''.sei.cow k).Holds (accessWrites (h.exec w0.mem).1)) := by
  obtain ⟨w, hstart, hin⟩ := hidle.handlerStart env h hk
  have hmem : w.mem = w0.mem := hin.mem
  obtain ⟨w', hrun, hin'⟩ := h.run_inPhase hk hidle.le hin
  rw [hmem] at hrun
  rw [hmem, List.nil_append] at hin'
  refine ⟨w, w', hstart, hmem, hrun, hin'.current.shaped_of_olds, fun hnext => ?_⟩
  have hsized := Handler.sized_accessWrites (h.exec w0.mem).1
  obtain ⟨w'', hswitch⟩ := hin'.exists_switch env hnext hidle.le hsized
  refine ⟨w'', hswitch, ?_, (hin'.switch hnext hsized hswitch).past k (by omega)⟩
  have hbody : h.body b w = .ok w' := by
    rw [Handler.body, hrun]
    rfl
  rw [World.handlerStart] at hstart
  rw [World.handlerStart, World.phaseStart, hstart, ok_bind, hbody, ok_bind, hswitch]

/-- Every deterministic handler runs isolated in all its phases, in every build. -/
theorem isolated_of_idle (hidle : w0.Idle b n) (h : Handler) : Isolated env b n w0 h where
  phase _ hk := phase_of_idle hidle h hk
  final := by
    obtain ⟨w, hend, hin⟩ := hidle.handlerEnd env h
    refine ⟨w, hend, ?_⟩
    rw [hin.mem, h.exec_mem]

/-- A handler that reads a byte and stores two words that overlap. -/
theorem isolated_of_idle_init :
    (World.init (Build.threeWay true false) (fun _ => 7)).Idle (Build.threeWay true false) 3 ∧
    Isolated Env.plain (Build.threeWay true false) 3
      (World.init (Build.threeWay true false) (fun _ => 7))
      (.read .uint8 5 fun v => .write .uint64 8 v (.write .uint32 10 (v + 1) .done)) :=
  ⟨World.idle_init _ _, isolated_of_idle (World.idle_init _ _) _⟩

end Isolation

end LibSei
