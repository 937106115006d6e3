-- SUMMARY: What a positive answer of `sei_try_commit` is worth: when the `sei_commit` that follows runs to its end.
import LibSei.ModeCow.Commit
import LibSei.ModeCow.Phases

/-!
# The pre-check

With CPU isolation `sei_commit` makes its irreversible steps right after an answer of 1,
and every check that still fails there ends the process. The pre-check covers the
logs, the control flow, the deferred calls and the frees. It does not look at the
allocations, and it sees the input message before the frees are made. What the deferred calls
return is known only when they have been made.
-/

namespace LibSei

open Memory Control

namespace World

/-- The process when `sei_commit` makes its last checks: the deferred calls and the frees
have been made. -/
def flushed (env : Env) (w : World) : Machine :=
  w.sei.tbin.freeItems env (w.sei.tbin.nitems 0)
    (w.sei.wts.callItems (w.sei.wts.nitems 0) w.machine)

section Precheck

variable {env : Env} {b : Build} {n : Nat} {w0 w w' : World} {phases : Nat → List Call}

/-- What `sei_commit` still has to check when the pre-check has accepted. -/
theorem commit_eq_of_accepted {cf : Nat → Cfc} (hb : b.cpuIsolation = true)
    (h : Accepted env b w cf) :
    commit env b { w with sei := { w.sei with
        cow := rewindAll w.sei.redundancyLevel w.sei.cow, cf := cf } } = do
      let (wts, machine) ← w.sei.wts.flushWith (runCallback env b) b w.machine
      let machine := w.sei.tbin.freeItems env (w.sei.tbin.nitems 0) machine
      let talloc ← w.sei.talloc.clean b
      let r ← w.sei.ibuf.correct env b machine.mem
      require (r = true) (.abort "input message modified")
      return {
        sei := { w.sei with
          p := -1
          cow := cleanAll w.sei.redundancyLevel (rewindAll w.sei.redundancyLevel w.sei.cow)
          cf := cf
          wts := wts
          tbin := w.sei.tbin.clear (w.sei.tbin.nitems 0)
          talloc := talloc
          obuf := w.sei.obuf.close }
        machine := machine } := by
  have hcheck : checkLoop (fun i => finalCheck b ((cf i).check = true) "control flow error")
      w.sei.redundancyLevel 0 = .ok () := by
    refine checkLoop_eq_ok.mpr fun i hlo hi => ?_
    rw [finalCheck, if_pos hb, require_eq_ok, h.cf]
    exact check_of_gates h.gated i hlo hi
  simp only [commit, commitVerify, if_pos hb, finalCheck, pure_eq_ok, ok_bind, Tbin.flush_of_agree (Tbin.canFlush_eq_true.mp h.frees)]
  simp only [finalCheck, if_pos hb] at hcheck
  simp only [hcheck, ok_bind]

/-- After an answer of 1 in the final phase, `sei_commit` runs to its end exactly when all
phases allocated equally often, the input message is still intact after the frees and, with
assertions, the deferred calls return what was promised. -/
theorem commit_of_tryCommit_iff (hb : b.cpuIsolation = true) (hidle : w0.Idle b n)
    (hrun : World.finalPhase env b phases w0 = .ok w)
    (htry : w.tryCommit env b = .ok (true, w')) :
    (∃ w'', w'.commit env b = .ok w'') ↔
      w.sei.talloc.SameCounts ∧
        w.sei.ibuf.correct env b (w.flushed env).mem = .ok true ∧
        (b.ndebug = true ∨ w.sei.wts.Answered env w.machine) := by
  obtain ⟨cf, rfl, haccepted⟩ := tryCommit_spec htry
  have hn := hidle.two_le
  rw [World.finalPhase, hidle.level] at hrun
  have hin := hidle.inPhase (by omega) hrun
  have hlast : w.sei.talloc.p + 1 = w.sei.talloc.redundancyLevel := by
    rw [hin.talloc_p, hin.talloc_level]
    omega
  simp only [commit_eq_of_accepted hb (haccepted rfl), bind_eq_ok, Wts.flushWith_runCallback_eq_ok,
    Wts.flush_of_canFlush (haccepted rfl).deferred, Except.ok.injEq, Talloc.clean_eq_ok hlast,
    require_eq_ok, exists_const]
  constructor
  · rintro ⟨_, _, ⟨hanswered, rfl⟩, _, ⟨hcounts, _⟩, r, hcorrect, rfl, _⟩
    exact ⟨hcounts, hcorrect, hanswered⟩
  · rintro ⟨hcounts, hcorrect, hanswered⟩
    exact ⟨_, _, ⟨hanswered, rfl⟩, _, ⟨hcounts, rfl⟩, true, hcorrect, rfl, rfl⟩

/-- Phases that allocate equally often commit. -/
theorem commit_of_tryCommit_oneMalloc :
    ∃ w w', World.finalPhase Env.plain (Build.twoWay false true) (fun _ => [.malloc 8])
        (World.init (Build.twoWay false true) fun _ => 0) = .ok w ∧
      w.tryCommit Env.plain (Build.twoWay false true) = .ok (true, w') ∧
      ∃ w'', w'.commit Env.plain (Build.twoWay false true) = .ok w'' := by
  obtain ⟨w, w', hrun, htry, hcounts, hcorrect, hcalls⟩ : ∃ w w', World.finalPhase Env.plain
      (Build.twoWay false true) (fun _ => [.malloc 8])
      (World.init (Build.twoWay false true) fun _ => 0) = .ok w ∧
      w.tryCommit Env.plain (Build.twoWay false true) = .ok (true, w') ∧
      w.sei.talloc.canCommit = .ok true ∧
      w.sei.ibuf.correct Env.plain (Build.twoWay false true) (w.flushed Env.plain).mem =
        .ok true ∧
      w.sei.wts.nitems 0 = 0 := ⟨_, _, rfl, rfl, rfl, rfl, rfl⟩
  refine ⟨w, w', hrun, htry, ?_⟩
  exact (commit_of_tryCommit_iff rfl (World.idle_init _ _) hrun htry).mpr
    ⟨Talloc.canCommit_eq_true.mp hcounts, hcorrect, .inr (Wts.answered_of_none hcalls)⟩

/-- Only phase 0 allocates. -/
def mallocOnce (p : Nat) : List Call := if p = 0 then [.malloc 8] else []

/-- The pre-check answers 1 and the commit fails. -/
theorem commit_mallocOnce :
    ∃ w w', World.finalPhase Env.plain (Build.twoWay true true) mallocOnce
        (World.init (Build.twoWay true true) fun _ => 0) = .ok w ∧
      w.tryCommit Env.plain (Build.twoWay true true) = .ok (true, w') ∧
      Exec.Fails (w'.commit Env.plain (Build.twoWay true true)) :=
  ⟨_, _, rfl, rfl, .fail _ _, trivial, rfl⟩

end Precheck

end World

end LibSei
