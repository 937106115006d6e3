-- SUMMARY: The pthread wrappers under two-phase locking: locks taken in phase 0, replayed in later phases and released after commit.
import LibSei.Abuf.Record

/-!
# Wrapped pthread functions

Phase 0 takes the locks and records the results in the buffer `abuf` of the thread; the
phases after it read the results back. Under `SEI_2PL` an unlock inside a transaction does
nothing: after commit the buffer is read once more, and every lock that was taken is
released.
-/

namespace LibSei

open Memory Control

/-- A call of one of the wrapped functions. -/
inductive LockOp where
  | lock (m : Nat)
  | trylock (m : Nat)
  | unlock (m : Nat)
  deriving DecidableEq, Repr

/-- A call of one of the underlying functions, with its result. -/
inductive LockCall where
  | lock (m : Nat) (r : Int32)
  | trylock (m : Nat) (r : Int32)
  | unlock (m : Nat) (r : Int32)
  deriving DecidableEq

/-- What the wrappers work on: the buffer `abuf` of the thread, and the underlying functions
called so far. -/
structure LockState where
  abuf : Abuf
  calls : List LockCall

/-- The underlying function is called. -/
def LockState.really (s : LockState) (c : LockCall) : LockState := { s with calls := s.calls ++ [c] }

/-! ## Wrappers -/

/-- The body of `pthread_mutex_lock` and `pthread_mutex_trylock`. `c` is the call of the
underlying function and `real` what it returns if it is called. -/
def acquireCall (b : Build) (p : Int) (m : Nat) (real : Int32) (c : LockCall) (s : LockState) :
    Exec (Int32 × LockState) :=
  if p = 0 then
    return (real, { s.really c with abuf := s.abuf.push .uint64 m real.toInt64.toUInt64.toNat })
  else if p > 0 then do
    let (v, abuf) ← s.abuf.popType b .uint64 m
    return ((UInt64.ofNat v).toInt64.toInt32, { s with abuf := abuf })
  else return (real, s.really c)

def pthreadMutexLock (b : Build) (p : Int) (m : Nat) (real : Int32) : LockState →
    Exec (Int32 × LockState) :=
  acquireCall b p m real (.lock m real)

def pthreadMutexTrylock (b : Build) (p : Int) (m : Nat) (real : Int32) : LockState →
    Exec (Int32 × LockState) :=
  acquireCall b p m real (.trylock m real)

def pthreadMutexUnlock (p : Int) (m : Nat) (real : Int32) (s : LockState) :
    Exec (Int32 × LockState) :=
  if p ≥ 0 then return (0, s) else return (real, s.really (.unlock m real))

/-- A wrapped call in phase `p`. -/
def LockOp.run (b : Build) (p : Int) (o : LockOp) (real : Int32) : LockState →
    Exec (Int32 × LockState) :=
  match o with
  | .lock m => pthreadMutexLock b p m real
  | .trylock m => pthreadMutexTrylock b p m real
  | .unlock m => pthreadMutexUnlock p m real

/-- The calls of a phase, each with what the underlying function returns if it is called;
the handler is given the results. -/
def LockState.run (b : Build) (p : Int) : List (LockOp × Int32) → LockState →
    Exec (List Int32 × LockState) :=
  runEach fun x => x.1.run b p x.2

/-- The loop that releases the locks, `n` entries of it. A mutex that was taken is held by
the thread, so the real unlock returns 0. -/
def lateUnlock (b : Build) : Nat → LockState → Exec LockState
  | 0, s => return s
  | n + 1, s => do
      let (l, v, abuf) ← s.abuf.pop b
      let s := { s with abuf := abuf }
      if (UInt64.ofNat v).toInt64.toInt32 = 0 then lateUnlock b n (s.really (.unlock l 0))
      else lateUnlock b n s

/-- The release of the locks at the end of `__sei_commit`. -/
def LockState.release (b : Build) (s : LockState) : Exec LockState := do
  let s := { s with abuf := s.abuf.rewind }
  let s ← lateUnlock b s.abuf.pushed s
  return { s with abuf := s.abuf.clean }

/-! ## What a phase does -/

/-- The call of the underlying function that a phase 0 makes, if any. -/
def LockOp.call? : LockOp → Int32 → Option LockCall
  | .lock m, r => some (.lock m r)
  | .trylock m, r => some (.trylock m r)
  | .unlock _, _ => none

/-- The mutex a call wants to take, if any. -/
def LockOp.wants? : LockOp → Option Nat
  | .lock m => some m
  | .trylock m => some m
  | .unlock _ => none

/-- The calls a phase 0 makes. -/
def lockCalls (xs : List (LockOp × Int32)) : List LockCall := xs.filterMap fun x => x.1.call? x.2

/-- The attempts to take a mutex in a phase 0, each with its result. -/
def attempts (xs : List (LockOp × Int32)) : List (Nat × Int32) :=
  xs.filterMap fun x => x.1.wants?.map (·, x.2)

/-- The mutexes taken in a phase 0. -/
def acquired (xs : List (LockOp × Int32)) : List Nat :=
  (attempts xs).filterMap fun x => if x.2 = 0 then some x.1 else none

/-- The unlock an attempt to take a mutex leads to after commit. -/
def releaseOf (x : Nat × Int32) : Option LockCall := if x.2 = 0 then some (.unlock x.1 0) else none

/-- What a phase 0 leaves in the buffer. -/
def lockLog (xs : List (LockOp × Int32)) : List (Nat × Nat) :=
  (attempts xs).map fun x => (x.1, x.2.toInt64.toUInt64.toNat)

/-- What the handler is given in phase 0. -/
def lockReplies (xs : List (LockOp × Int32)) : List Int32 :=
  xs.map fun x => if x.1.wants?.isSome then x.2 else 0

section Append

variable {xs ys : List (LockOp × Int32)}

@[simp] theorem attempts_append : attempts (xs ++ ys) = attempts xs ++ attempts ys :=
  List.filterMap_append

@[simp] theorem acquired_append : acquired (xs ++ ys) = acquired xs ++ acquired ys := by
  simp [acquired]

@[simp] theorem lockCalls_append : lockCalls (xs ++ ys) = lockCalls xs ++ lockCalls ys :=
  List.filterMap_append

@[simp] theorem lockLog_append : lockLog (xs ++ ys) = lockLog xs ++ lockLog ys := by
  simp [lockLog]

end Append

namespace LockOp

variable {b : Build} {p : Int} {o : LockOp} {m : Nat} {s : LockState}

theorem run_of_wants (h : o.wants? = some m) (real : Int32) :
    ∃ c, o.call? real = some c ∧ o.run b p real = acquireCall b p m real c := by
  cases o <;> cases h <;> exact ⟨_, rfl, rfl⟩

theorem run_of_not_wants (h : o.wants? = none) (hp : 0 ≤ p) (real : Int32) :
    o.call? real = none ∧ o.run b p real s = .ok (0, s) := by
  cases o with
  | unlock m => exact ⟨rfl, if_pos hp⟩
  | _ => cases h

/-- In phase 0 the handler is given what the underlying function returns. -/
theorem run_first {real r : Int32} {s' : LockState} (h : o.run b 0 real s = .ok (r, s')) :
    r = if o.wants?.isSome then real else 0 := by
  cases o <;> cases h <;> rfl

end LockOp

section Phases

variable {b : Build} {s : LockState} {l : List (Nat × Nat)} {xs ys : List (LockOp × Int32)}

/-- A recorded result comes back as it was. -/
theorem toInt32_lockResult (r : Int32) :
    (UInt64.ofNat (r.toInt64.toUInt64.toNat % 256 ^ 8)).toInt64.toInt32 = r := by
  have hlt : r.toInt64.toUInt64.toNat < 256 ^ 8 := r.toInt64.toUInt64.toNat_lt
  rw [Nat.mod_eq_of_lt hlt]
  simp

variable (xs) in
/-- In phase 0 the mutexes are taken and the results recorded. -/
theorem LockState.run_firstPhase (hlog : s.abuf.Results .uint64 l 0) :
    ∃ s', s.run b 0 xs = .ok (lockReplies xs, s') ∧
      s'.abuf.Results .uint64 (l ++ lockLog xs) 0 ∧ s'.calls = s.calls ++ lockCalls xs := by
  induction xs generalizing s l with
  | nil => exact ⟨s, rfl, by simpa [lockLog, attempts] using hlog, by simp [lockCalls]⟩
  | cons x xs ih =>
    obtain ⟨o, real⟩ := x
    cases hwants : o.wants? with
    | some m =>
      obtain ⟨c, hc, hcall⟩ := LockOp.run_of_wants (b := b) (p := 0) hwants real
      obtain ⟨s', hrun, hlog', hcalls⟩ := ih
        (s := { s.really c with abuf := s.abuf.push .uint64 m real.toInt64.toUInt64.toNat })
        (hlog.push m real.toInt64.toUInt64.toNat)
      refine ⟨s', ?_, ?_, ?_⟩
      · rw [lockReplies, List.map_cons, hwants]
        refine runEach_cons_of ?_ hrun
        simp only [hcall]
        exact if_pos rfl
      · simpa [lockLog, attempts, hwants] using hlog'
      · simpa [lockCalls, hc, LockState.really] using hcalls
    | none =>
      obtain ⟨hc, hcall⟩ := LockOp.run_of_not_wants (b := b) (s := s) hwants (le_refl 0) real
      obtain ⟨s', hrun, hlog', hcalls⟩ := ih hlog
      refine ⟨s', ?_, ?_, ?_⟩
      · rw [lockReplies, List.map_cons, hwants]
        exact runEach_cons_of hcall hrun
      · simpa [lockLog, attempts, hwants] using hlog'
      · simpa [lockCalls, hc] using hcalls

/-- A call of a later phase is given the result that phase 0 recorded, and calls nothing. -/
theorem LockOp.run_replay {p : Int} {o : LockOp} {r : Int32} {l' : List (Nat × Nat)} {k : Nat}
    (hp : 0 < p) (hlog : s.abuf.Results .uint64 (l ++ (lockLog [(o, r)] ++ l')) k)
    (hk : k = l.length) (real : Int32) :
    ∃ s', o.run b p real s = .ok (if o.wants?.isSome then r else 0, s') ∧ s'.calls = s.calls ∧
      s'.abuf.Results .uint64 (l ++ (lockLog [(o, r)] ++ l')) (l ++ lockLog [(o, r)]).length := by
  cases hwants : o.wants? with
  | some m =>
    have hone : lockLog [(o, r)] = [(m, r.toInt64.toUInt64.toNat)] := by
      simp [lockLog, attempts, hwants]
    rw [hone] at hlog ⊢
    have hlt : k < (l ++ ([(m, r.toInt64.toUInt64.toNat)] ++ l')).length := by
      rw [hk]
      simp
    have hentry : (l ++ ([(m, r.toInt64.toUInt64.toNat)] ++ l'))[k] =
        (m, r.toInt64.toUInt64.toNat) := by
      subst hk
      simp
    have hpop := hlog.popType (b := b) hlt (show _ = m by rw [hentry])
    rw [hentry] at hpop
    obtain ⟨c, _, hcall⟩ := LockOp.run_of_wants (b := b) (p := p) hwants real
    refine ⟨{ s with abuf := { s.abuf with poped := k + 1 } }, ?_, rfl, ?_⟩
    · rw [hcall, acquireCall, if_neg (by omega), if_pos hp, hpop, ok_bind]
      simp only [UIntTy.sizeof, toInt32_lockResult]
      rfl
    · rw [List.length_append, ← hk]
      exact hlog.poped_succ
  | none =>
    have hone : lockLog [(o, r)] = [] := by simp [lockLog, attempts, hwants]
    rw [hone] at hlog ⊢
    obtain ⟨_, hcall⟩ := LockOp.run_of_not_wants (b := b) (s := s) hwants hp.le real
    refine ⟨s, hcall, rfl, ?_⟩
    rw [List.append_nil, ← hk]
    exact hlog

/-- A later phase that makes the same calls is given the results of phase 0 and calls
nothing. -/
theorem LockState.run_laterPhase {p : Int} {k : Nat} (hp : 0 < p)
    (hsame : ys.map Prod.fst = xs.map Prod.fst)
    (hlog : s.abuf.Results .uint64 (l ++ lockLog xs) k) (hk : k = l.length) :
    ∃ s', s.run b p ys = .ok (lockReplies xs, s') ∧
      s'.abuf.Results .uint64 (l ++ lockLog xs) (l ++ lockLog xs).length ∧ s'.calls = s.calls := by
  induction xs generalizing s l k ys with
  | nil =>
    obtain rfl := List.map_eq_nil_iff.mp hsame
    subst hk
    exact ⟨s, rfl, by simpa [lockLog, attempts] using hlog, rfl⟩
  | cons x xs ih =>
    obtain ⟨o, r⟩ := x
    obtain ⟨⟨o', real⟩, ys, rfl, ho, hys⟩ := List.map_eq_cons_iff.mp hsame
    simp only at ho
    subst ho
    have hcons : lockLog ([(o', r)] ++ xs) = lockLog [(o', r)] ++ lockLog xs := lockLog_append
    rw [List.singleton_append] at hcons
    rw [hcons] at hlog ⊢
    obtain ⟨s1, hcall, hcalls1, hlog1⟩ := LockOp.run_replay (b := b) hp hlog hk real
    rw [← List.append_assoc] at hlog1 ⊢
    obtain ⟨s', hrun, hlog', hcalls⟩ := ih hys hlog1 rfl
    exact ⟨s', runEach_cons_of hcall hrun, hlog', hcalls.trans hcalls1⟩

/-- The release loop calls unlock once for every recorded result 0. -/
theorem lateUnlock_spec {as : List (Nat × Int32)} {k : Nat}
    (hlog : s.abuf.Results .uint64 (as.map fun x => (x.1, x.2.toInt64.toUInt64.toNat)) k) {n : Nat}
    (hn : k + n = as.length) :
    ∃ s', lateUnlock b n s = .ok s' ∧
      s'.calls = s.calls ++ (as.drop k).filterMap releaseOf := by
  induction n generalizing s k with
  | zero => exact ⟨s, rfl, by simp [List.drop_eq_nil_of_le (show as.length ≤ k by omega)]⟩
  | succ n ih =>
    have hlt : k < as.length := by omega
    have hpop := hlog.pop (b := b) (by simpa using hlt)
    simp only [List.getElem_map] at hpop
    rw [lateUnlock, hpop, ok_bind, List.drop_eq_getElem_cons hlt]
    simp only [toInt32_lockResult]
    by_cases hr : as[k].2 = 0
    · rw [if_pos hr]
      obtain ⟨s', hrun, hcalls⟩ := ih (k := k + 1)
        (s := LockState.really { s with abuf := { s.abuf with poped := k + 1 } } (.unlock as[k].1 0))
        hlog.poped_succ (by omega)
      refine ⟨s', hrun, ?_⟩
      rw [hcalls, List.filterMap_cons_some (show releaseOf as[k] = _ from if_pos hr),
        List.append_cons]
      rfl
    · rw [if_neg hr]
      obtain ⟨s', hrun, hcalls⟩ := ih (k := k + 1)
        (s := { s with abuf := { s.abuf with poped := k + 1 } }) hlog.poped_succ (by omega)
      refine ⟨s', hrun, ?_⟩
      rw [hcalls, List.filterMap_cons_none (show releaseOf as[k] = _ from if_neg hr)]

/-- After commit every mutex taken is released once, in order, and the buffer is empty. -/
theorem LockState.release_spec {k : Nat} (hlog : s.abuf.Results .uint64 (lockLog xs) k) :
    ∃ s', s.release b = .ok s' ∧ s'.abuf.Empty ∧
      s'.calls = s.calls ++ (acquired xs).map fun m => .unlock m 0 := by
  have hpushed : s.abuf.rewind.pushed = (attempts xs).length :=
    hlog.rewind.pushed.trans (by simp [lockLog])
  obtain ⟨s', hrun, hcalls⟩ := lateUnlock_spec (b := b) (s := { s with abuf := s.abuf.rewind })
    (n := s.abuf.rewind.pushed) hlog.rewind (by rw [hpushed, Nat.zero_add])
  refine ⟨{ s' with abuf := s'.abuf.clean }, ?_, s'.abuf.empty_clean, ?_⟩
  · simp only [LockState.release, hrun, ok_bind]
    rfl
  · show s'.calls = _
    rw [hcalls, List.drop_zero, acquired, List.map_filterMap]
    congr 1
    refine List.filterMap_congr fun x _ => ?_
    unfold releaseOf
    split <;> rfl

end Phases

end LibSei
