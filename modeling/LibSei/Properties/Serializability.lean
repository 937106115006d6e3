-- SUMMARY: Serializability under two-phase locking: in every interleaving the commits are a serial execution of the handlers.
import LibSei.Properties.TwoPhaseLocking

/-!
# Serializability

Threads run handlers in any interleaving, each handler several times over, and undo and redo
their writes in shared memory. What is left is what the handlers do one after the other, in the
order in which they commit: each reads what the handlers before it have left, and memory ends as
the last of them leaves it.
-/

namespace LibSei

open Memory Control

/-! ## Serial executions -/

namespace Transaction

/-- The memory after the transaction. -/
def outcome (m : Mem) (t : Transaction) : Mem := runWrites (actionWrites t.actions) m

/-- The actions are a run of the handler from start to end, alone on memory `m`. -/
structure Alone (m : Mem) (t : Transaction) : Prop where
  whole : t.handler.after t.actions = some .done
  reads : RunsOn m t.actions

/-- The transactions run one after the other, each alone on what those before it have left. -/
def Serial : Mem → List Transaction → Prop
  | _, [] => True
  | m, t :: ts => t.Alone m ∧ Serial (t.outcome m) ts

theorem serial_append {m : Mem} {ts us : List Transaction} :
    Serial m (ts ++ us) ↔ Serial m ts ∧ Serial (ts.foldl outcome m) us := by
  induction ts generalizing m with
  | nil => simp [Serial]
  | cons t ts ih => rw [List.cons_append, Serial, Serial, ih, List.foldl_cons, and_assoc]

end Transaction

open Transaction (Serial outcome)

/-! ## Commits -/

/-- The thread commits nothing when it does not get from a handler to the release of its locks. -/
theorem System.commits?_set {s : System} {i : Nat} {t : Tmi} {pc : Pc} {C : Mem}
    (h : ∀ k, pc ≠ .leaving k) : System.commits? i s (s.set i t pc C) = none := by
  rw [System.commits?, System.pc_set_self]
  cases pc with
  | outside => cases s.pc i <;> rfl
  | running handler rest first now => cases s.pc i <;> rfl
  | leaving k => exact absurd rfl (h k)

section Serializability

variable {env : Env} {b : Build} {guard : Nat → Guard} {n : Nat → Nat} {s s' : System} {i : Nat}
  {ts : List Transaction}

/-- What is committed changes by the transaction that commits, which has run alone on it. -/
theorem SystemInv.committed_step (h : SystemInv b guard n s)
    (hstep : System.Step env b guard i s s') :
    Serial s.committed (System.commits? i s s').toList ∧
      s'.committed = (System.commits? i s s').toList.foldl outcome s.committed := by
  cases hstep with
  | commit hpc hlast hcommit =>
    obtain ⟨_, hreplays⟩ := h.running hpc
    rw [System.commits?, System.pc_set_self, hpc]
    refine ⟨⟨⟨hreplays.after, ?_⟩, trivial⟩, rfl⟩
    -- at its end the last phase has done what phase 0 did
    rw [hreplays.eq_of_done (.inr rfl)]
    exact hreplays.reads
  | unlock hpc hunlock =>
    rw [System.commits?, hpc]
    exact ⟨trivial, rfl⟩
  | begin | read | write | lock | switch | leave =>
    rw [System.commits?_set fun _ hk => Pc.noConfusion hk]
    exact ⟨trivial, rfl⟩

theorem SystemInv.committed_run (h : SystemInv b guard n s) (hrun : System.Run env b guard s ts s') :
    Serial s.committed ts ∧ s'.committed = ts.foldl outcome s.committed := by
  induction hrun with
  | start => exact ⟨trivial, rfl⟩
  | step hrun hstep ih =>
    obtain ⟨hserial, hcommitted⟩ := ih
    obtain ⟨hserial', hcommitted'⟩ := (h.steps hrun.steps).committed_step hstep
    rw [hcommitted] at hserial' hcommitted'
    refine ⟨Transaction.serial_append.mpr ⟨hserial, hserial'⟩, ?_⟩
    rw [hcommitted', List.foldl_append]

/-- Whatever the interleaving, the transactions that have committed are a serial execution in the
order of their commits, and memory is what it leaves, apart from bytes that a thread has written
in a phase it is still in. -/
theorem serializable_of_steps (hinit : s.Initial b n) (hsteps : System.Steps env b guard s s') :
    (∃ ts, System.Run env b guard s ts s') ∧
      ∀ ts, System.Run env b guard s ts s' → Serial s.process.machine.mem ts ∧
        ∀ byte, (∀ i, ¬ (s'.pc i).Covers byte) →
          s'.process.machine.mem byte = ts.foldl outcome s.process.machine.mem byte := by
  have hstart : SystemInv b guard n s := .initial hinit
  refine ⟨hsteps.exists_run, fun ts hrun => ?_⟩
  obtain ⟨hserial, hcommitted⟩ := hstart.committed_run hrun
  rw [hinit.committed] at hserial hcommitted
  refine ⟨hserial, fun byte hb => ?_⟩
  rw [(hstart.steps hsteps).memory byte hb, hcommitted]

end Serializability

/-- Thread 0 increments the counter; thread 1 finds it locked, and its handler ends and commits
while thread 0 is in its second phase. -/
theorem serializable_increment :
    ∃ s, System.Steps Env.plain (Build.twoWay true false) counterGuard
        (System.init (Build.twoWay true false) fun _ => 0) s ∧
      ∃ ts, System.Run Env.plain (Build.twoWay true false) counterGuard
          (System.init (Build.twoWay true false) fun _ => 0) ts s ∧
        ts.map Transaction.thread = [1, 0] ∧ Serial (fun _ => 0) ts ∧
        s.process.machine.mem 64 = ts.foldl outcome (fun _ => 0) 64 := by
  have hinit := System.initial_init (Build.twoWay true false) fun _ => 0
  obtain ⟨_, s, ts, -, -, -, hrun, hthreads, hcovers⟩ := increment_run
  obtain ⟨hserial, hmem⟩ := (serializable_of_steps hinit hrun.steps).2 _ hrun
  exact ⟨s, hrun.steps, ts, hrun, hthreads, hserial, hmem 64 hcovers⟩

end LibSei
