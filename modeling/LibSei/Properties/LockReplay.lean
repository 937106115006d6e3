-- SUMMARY: Lock operations over the phases of a transaction: taken in phase 0, replayed after it, released once after commit.
import LibSei.Tmi.Separation
import LibSei.Tmi.Transaction

/-!
# Replay and release of locks

The mutexes of a transaction are taken in phase 0. The results here follow the lock
operations of a handler through all its phases and the commit, whatever else the phases
do.
-/

namespace LibSei

open Memory Control

/-- After a phase of a transaction whose phase 0 made the lock operations `xs`; `made` are the
underlying functions called before the transaction. -/
structure LocksAfter (made : List LockCall) (xs : List (LockOp × Int32)) (l : LockState) : Prop where
  calls : l.calls = made ++ lockCalls xs
  results : ∃ k, l.abuf.Results .uint64 (lockLog xs) k

/-- Before phase `k` of a transaction that began in the state `l0`. The record has been rewound. -/
def LocksBefore (l0 : LockState) (xs : List (LockOp × Int32)) : Nat → LockState → Prop
  | 0, l => l = l0
  | _ + 1, l => l.calls = l0.calls ++ lockCalls xs ∧ l.abuf.Results .uint64 (lockLog xs) 0

/-- The lock operations of a transaction of `n` phases, which begins in `t0`, are made in phase
0 only: in every phase the handler is given their results (`rss` is what the operations of
the phases returned), and no phase after phase 0 calls an underlying function. After the
commit, in `t'`, every mutex taken has been released once, and the record is empty. -/
structure LocksReplayed (env : Env) (b : Build) (rbp n : Nat) (os : Nat → List Op) (t0 : Tmi)
    (rss : List (List (Option Int32))) (t' : Tmi) : Prop where
  replayed : ∀ k < n, ∃ rs, rss[k]? = some rs ∧
    (lockPart env b).replies (os k) rs = lockReplies ((lockPart env b).of (os 0))
  called : ∀ k < n, ∃ rss1 t1, Tmi.phases env b rbp os t0 k = .ok (rss1, t1) ∧
    t1.locks.calls = t0.locks.calls ++ lockCalls ((lockPart env b).of (os 0))
  released : t'.locks.calls = t0.locks.calls ++ lockCalls ((lockPart env b).of (os 0)) ++
    (acquired ((lockPart env b).of (os 0))).map fun m => .unlock m 0
  empty : t'.locks.abuf.Empty

section Replay

variable {env : Env} {b : Build} {rbp n : Nat} {os : Nat → List Op} {t0 t1 t2 : Tmi}
  {rss0 : List (List (Option Int32))}

/-- A transaction that runs through without its lock operations runs through with them. -/
theorem Tmi.phases_locks (hbetween : t0.Between b n)
    (hsame : ∀ k < n, ((lockPart env b).of (os k)).map Prod.fst =
      ((lockPart env b).of (os 0)).map Prod.fst) {k : Nat} (hk : k < n)
    (hrun : Tmi.phases env b rbp (fun k => (lockPart env b).without (os k)) t0 k = .ok (rss0, t1)) :
    ∃ rss l, Tmi.phases env b rbp os t0 k = .ok (rss, t1.setLocks l) ∧
      LocksAfter t0.locks.calls ((lockPart env b).of (os 0)) l ∧
      ∀ j ≤ k, ∃ rs, rss[j]? = some rs ∧
        (lockPart env b).replies (os j) rs = lockReplies ((lockPart env b).of (os 0)) := by
  obtain ⟨rss, l, hphases, hafter, _, hreplies⟩ := Part.phases_set (P := lockPart env b)
    (I := LocksBefore t0.locks ((lockPart env b).of (os 0)))
    (J := fun _ => LocksAfter t0.locks.calls ((lockPart env b).of (os 0)))
    (Q := fun _ => lockReplies ((lockPart env b).of (os 0)))
    hbetween.idle.p hbetween.idle.level hk rfl
    (fun j hj l hl => by
      cases j with
      | zero =>
        obtain rfl : l = t0.locks := hl
        obtain ⟨l', hrun, hresults, hcalls⟩ :=
          LockState.run_firstPhase ((lockPart env b).of (os 0)) (b := b) hbetween.abuf.results
        exact ⟨l', hrun, hcalls, 0, hresults⟩
      | succ j =>
        obtain ⟨l', hrun, hresults, hcalls⟩ := LockState.run_laterPhase (b := b) (l := [])
          (show (0 : Int) < (j + 1 : Nat) by omega) (hsame (j + 1) (by omega)) hl.2 rfl
        exact ⟨l', hrun, hcalls.trans hl.1, _, hresults⟩)
    (fun j _ l hl => by
      obtain ⟨k, hresults⟩ := hl.results
      exact ⟨hl.calls, hresults.rewind⟩) hrun
  exact ⟨rss, l, hphases, hafter, hreplies⟩

/-- The phases after phase 0 make the same lock operations as phase 0 did, and the handler
otherwise anything that runs through and commits. Then it runs through and commits with
these operations, and they are replayed and released as they should be. -/
theorem locksReplayed_of_committed (hbetween : t0.Between b n)
    (hsame : ∀ k < n, ((lockPart env b).of (os k)).map Prod.fst =
      ((lockPart env b).of (os 0)).map Prod.fst)
    (hrun : Tmi.phases env b rbp (fun k => (lockPart env b).without (os k)) t0 (n - 1) =
      .ok (rss0, t1)) (hcommit : t1.seiCommit env b = .ok (.committed, t2)) :
    ∃ rss t t', Tmi.phases env b rbp os t0 (n - 1) = .ok (rss, t) ∧
      t.seiCommit env b = .ok (.committed, t') ∧ LocksReplayed env b rbp n os t0 rss t' := by
  have hn : 2 ≤ n := hbetween.idle.two_le
  obtain ⟨rss, l, hphases, hafter, hreplies⟩ := Tmi.phases_locks hbetween hsame
    (show n - 1 < n by omega) hrun
  obtain ⟨_, hresults⟩ := hafter.results
  obtain ⟨l', hrelease, hempty, hcalls⟩ := LockState.release_spec (b := b) hresults
  rw [hafter.calls] at hcalls
  refine ⟨rss, t1.setLocks l, t2.setLocks l', hphases,
    Tmi.seiCommit_committed_setLocks hcommit hrelease, fun k hk => hreplies k (by omega),
    fun k hk => ?_, hcalls, hempty⟩
  obtain ⟨_, _, hwithout⟩ := Tmi.exists_phases_of_le (show k ≤ n - 1 by omega) hrun
  obtain ⟨rss1, l1, hphases1, hafter1, _⟩ := Tmi.phases_locks hbetween hsame hk hwithout
  exact ⟨rss1, _, hphases1, hafter1.calls⟩

/-- A phase that takes a mutex, fails to take a second one and stores a byte. -/
def lockAndTry : List Op := [.lock (.lock 8) 0, .lock (.trylock 16) 16, .write 0 .uint8 64 1,
  .lock (.unlock 8) 0]

/-- Three such phases commit. -/
theorem locksReplayed_lockAndTry :
    ∃ rss t t', Tmi.phases Env.plain (Build.threeWay false true) 0 (fun _ => lockAndTry)
        (Tmi.init (Build.threeWay false true) fun _ => 0) 2 = .ok (rss, t) ∧
      t.seiCommit Env.plain (Build.threeWay false true) = .ok (.committed, t') ∧
      LocksReplayed Env.plain (Build.threeWay false true) 0 3 (fun _ => lockAndTry)
        (Tmi.init (Build.threeWay false true) fun _ => 0) rss t' := by
  obtain ⟨rss0, t1, t2, hrun, hcommit⟩ : ∃ rss0 t1 t2,
      Tmi.phases Env.plain (Build.threeWay false true) 0
        (fun _ => (lockPart Env.plain (Build.threeWay false true)).without lockAndTry)
        (Tmi.init (Build.threeWay false true) fun _ => 0) 2 = .ok (rss0, t1) ∧
      t1.seiCommit Env.plain (Build.threeWay false true) = .ok (.committed, t2) :=
    ⟨_, _, _, rfl, rfl⟩
  exact locksReplayed_of_committed (Tmi.between_init (Build.threeWay false true) fun _ => 0)
    (fun _ _ => rfl) hrun hcommit

end Replay

end LibSei
