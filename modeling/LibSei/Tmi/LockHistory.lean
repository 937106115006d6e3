-- SUMMARY: The mutexes a thread holds, and the lock operations of a transaction through all its attempts.
import LibSei.Tmi.Separation
import LibSei.Tmi.Transaction

/-!
# Histories of lock operations

Which mutexes a thread holds follows from the underlying functions it has called. Inside a
transaction only phase 0 calls them, and only to take mutexes; nothing is released before
the commit. A new attempt starts with phase 0 again. What earlier attempts have recorded is
gone after the retry loop of `__sei_commit`, and still there after a `SIGSEGV`.
-/

namespace LibSei

open Memory Control

/-! ## Mutexes held -/

/-- The mutexes held after an attempt to take `m` that returned `r`, when `H` are held before
it. -/
def taking (H : Finset Nat) (m : Nat) (r : Int32) : Finset Nat := if r = 0 then insert m H else H

/-- The mutexes held after a call, when `H` are held before it. -/
def LockCall.after (H : Finset Nat) : LockCall → Finset Nat
  | .lock m r => taking H m r
  | .trylock m r => taking H m r
  | .unlock m r => if r = 0 then H.erase m else H

/-- The mutexes held after a sequence of calls. -/
def heldAfter (H : Finset Nat) (cs : List LockCall) : Finset Nat := cs.foldl LockCall.after H

/-- The mutexes a thread holds. -/
def LockState.held (s : LockState) : Finset Nat := heldAfter ∅ s.calls

/-- `pthread_mutex_lock` is never called on a mutex that is held. A call that blocks is in the
sequence like any other. -/
def NeverRelocks (H : Finset Nat) : List LockCall → Prop
  | [] => True
  | c :: cs => (∀ m r, c = .lock m r → m ∉ H) ∧ NeverRelocks (c.after H) cs

section Held

variable {H : Finset Nat} {cs ds : List LockCall} {xs ys : List (LockOp × Int32)} {m : Nat}

theorem mem_taking {m' : Nat} {r : Int32} : m ∈ taking H m' r ↔ m ∈ H ∨ r = 0 ∧ m = m' := by
  unfold taking
  split <;> simp_all [or_comm]

theorem taking_union {U : Finset Nat} {r : Int32} : taking (H ∪ U) m r = taking H m r ∪ U := by
  ext m'
  simp only [mem_taking, Finset.mem_union]
  tauto

theorem heldAfter_append : heldAfter H (cs ++ ds) = heldAfter (heldAfter H cs) ds :=
  List.foldl_append

theorem neverRelocks_append :
    NeverRelocks H (cs ++ ds) ↔ NeverRelocks H cs ∧ NeverRelocks (heldAfter H cs) ds := by
  induction cs generalizing H with
  | nil => simp [NeverRelocks, heldAfter]
  | cons c cs ih =>
    rw [List.cons_append, NeverRelocks, NeverRelocks, ih, and_assoc]
    rfl

theorem mem_acquired_singleton {o : LockOp} {r : Int32} :
    m ∈ acquired [(o, r)] ↔ o.wants? = some m ∧ r = 0 := by
  cases hwants : o.wants? with
  | none => simp [acquired, attempts, hwants]
  | some m' => by_cases hr : r = 0 <;> simp [acquired, attempts, hwants, hr, eq_comm]

/-- A phase 0 adds to the mutexes held those it has taken. -/
theorem mem_heldAfter_lockCalls : m ∈ heldAfter H (lockCalls xs) ↔ m ∈ H ∨ m ∈ acquired xs := by
  induction xs generalizing H with
  | nil => simp [lockCalls, heldAfter, acquired, attempts]
  | cons x xs ih =>
    obtain ⟨o, r⟩ := x
    rw [← List.singleton_append, lockCalls_append, acquired_append, heldAfter_append, ih,
      List.mem_append, ← or_assoc]
    refine or_congr ?_ Iff.rfl
    cases o with
    | unlock m' => simp [lockCalls, LockOp.call?, heldAfter, acquired, attempts, LockOp.wants?]
    | lock m' =>
      show m ∈ taking H m' r ↔ _
      rw [mem_taking]
      by_cases hr : r = 0 <;> simp [acquired, attempts, LockOp.wants?, hr]
    | trylock m' =>
      show m ∈ taking H m' r ↔ _
      rw [mem_taking]
      by_cases hr : r = 0 <;> simp [acquired, attempts, LockOp.wants?, hr]

theorem heldAfter_lockCalls_of_nil (h : acquired xs = []) : heldAfter H (lockCalls xs) = H := by
  ext m
  rw [mem_heldAfter_lockCalls, h]
  simp

/-- The release takes away the mutexes it is called for. -/
theorem mem_heldAfter_unlock {ms : List Nat} :
    m ∈ heldAfter H (ms.map fun m => .unlock m 0) ↔ m ∈ H ∧ m ∉ ms := by
  induction ms generalizing H with
  | nil => simp [heldAfter]
  | cons m' ms ih =>
    show m ∈ heldAfter (H.erase m') _ ↔ _
    rw [ih, Finset.mem_erase, List.mem_cons]
    tauto

theorem neverRelocks_unlock {ms : List Nat} :
    NeverRelocks H (ms.map fun m => .unlock m 0) := by
  induction ms generalizing H with
  | nil => trivial
  | cons m' ms ih => exact ⟨fun m r hc => LockCall.noConfusion hc, ih⟩

end Held

/-! ## Attempts -/

/-- An attempt that was given up: the lock operations of its phase 0, and the underlying
functions called by the time the next attempt starts. -/
structure Aborted where
  ops : List (LockOp × Int32)
  calls : List LockCall

/-- The states of a transaction begun in `t0`, as in `InTransaction`, with the attempts given
up so far and the lock operations that phase 0 of the present attempt has made. -/
inductive LockRun (env : Env) (b : Build) (rbp : Nat) (t0 : Tmi) :
    List Aborted → List (LockOp × Int32) → Tmi → Prop where
  | begin : LockRun env b rbp t0 [] [] (t0.seiBegin rbp)
  | op {as xs t o r t'} (h : LockRun env b rbp t0 as xs t) (hop : t.op env b o = .ok (r, t')) :
      LockRun env b rbp t0 as (if t.sei.p = 0 then xs ++ (lockPart env b).of [o] else xs) t'
  | reexecute {as xs t t'} (h : LockRun env b rbp t0 as xs t)
      (hcommit : t.seiCommit env b = .ok (.reexecute, t')) : LockRun env b rbp t0 as xs t'
  | retry {as xs t t'} (h : LockRun env b rbp t0 as xs t)
      (hcommit : t.seiCommit env b = .ok (.retry, t')) :
      LockRun env b rbp t0 (as ++ [⟨xs, t'.locks.calls⟩]) [] t'
  | sigsegv {as xs t t'} (h : LockRun env b rbp t0 as xs t)
      (hsegv : t.protectHandler env b = .ok t') :
      LockRun env b rbp t0 (as ++ [⟨xs, t'.locks.calls⟩]) [] t'

/-- What holds in such a state: the calls made are those of all phases 0, and the record is
that of the present one, possibly after entries of attempts given up. -/
structure LockTracks (t0 : Tmi) (as : List Aborted) (xs : List (LockOp × Int32)) (t : Tmi) :
    Prop where
  calls : t.locks.calls = t0.locks.calls ++ lockCalls (as.flatMap Aborted.ops ++ xs)
  record : ∃ zs k, zs ⊆ as.flatMap Aborted.ops ∧ t.locks.abuf.Results .uint64 (lockLog (zs ++ xs)) k
  aborted : ∀ a ∈ as, ∀ m ∈ acquired a.ops, m ∈ heldAfter ∅ a.calls

section Runs

variable {env : Env} {b : Build} {rbp n : Nat} {t0 t t' : Tmi} {as : List Aborted}
  {xs : List (LockOp × Int32)} {o : Op} {r : Option Int32}

theorem LockRun.inTransaction (h : LockRun env b rbp t0 as xs t) :
    Tmi.InTransaction env b rbp t0 t := by
  induction h with
  | begin => exact .begin
  | op h hop ih => exact .op ih hop
  | reexecute h hcommit ih => exact .commit ih hcommit (by decide)
  | retry h hcommit ih => exact .commit ih hcommit (by decide)
  | sigsegv h hsegv ih => exact .sigsegv ih hsegv

/-- The operations of a phase: those of phase 0 are added to the history. -/
theorem LockRun.ops {os : List Op} {rs : List (Option Int32)} (h : LockRun env b rbp t0 as xs t)
    (hops : Tmi.ops env b os t = .ok (rs, t')) :
    LockRun env b rbp t0 as (if t.sei.p = 0 then xs ++ (lockPart env b).of os else xs) t' := by
  induction os generalizing xs t rs with
  | nil =>
    cases hops
    rw [Part.of, List.filterMap_nil, List.append_nil, ite_self]
    exact h
  | cons o os ih =>
    obtain ⟨r, t1, rs', hop, hrest, rfl⟩ := runEach_cons_eq_ok.mp hops
    have hp : t1.sei.p = t.sei.p := (Tmi.op_keeps hop).frame.p
    have hcons : (lockPart env b).of (o :: os) = (lockPart env b).of [o] ++ (lockPart env b).of os :=
      List.filterMap_append (l := [o])
    have hrun := ih (h.op hop) hrest
    rw [hp] at hrun
    rw [hcons, ← List.append_assoc]
    by_cases hzero : t.sei.p = 0
    · simp only [if_pos hzero] at hrun ⊢
      exact hrun
    · simp only [if_neg hzero] at hrun ⊢
      exact hrun

/-- Only lock operations work on their part of the state. -/
theorem Tmi.op_locks (ho : (lockPart env b).pick o = none) (h : t.op env b o = .ok (r, t')) :
    t'.locks = t.locks := by
  have hset : t.op env b o = .ok (r, t'.setLocks t.locks) :=
    (lockPart env b).op_other (s := t.locks) ho h
  rw [h, Except.ok.injEq, Prod.mk.injEq] at hset
  have hlocks := congrArg (fun u : Tmi => u.locks) hset.2
  exact hlocks

theorem Abuf.popType_eq_ok {a a' : Abuf} {ty : UIntTy} {addr v : Nat}
    (h : a.popType b ty addr = .ok (v, a')) : a' = { a with poped := a.poped + 1 } := by
  simp only [Abuf.popType, bind_eq_ok, pure_eq_ok, Except.ok.injEq, Prod.mk.injEq] at h
  obtain ⟨_, _, _, _, _, _, _, _, _, rfl⟩ := h
  rfl

/-- A lock operation calls and records in phase 0 and only reads after it. -/
theorem LockOp.run_tracks {c : LockOp} {real q : Int32} {p : Int} {s s' : LockState}
    {l : List (Nat × Nat)} {k : Nat} (hp : 0 ≤ p) (hlog : s.abuf.Results .uint64 l k)
    (h : c.run b p real s = .ok (q, s')) :
    if p = 0 then s'.calls = s.calls ++ lockCalls [(c, real)] ∧
        s'.abuf.Results .uint64 (l ++ lockLog [(c, real)]) k
      else s'.calls = s.calls ∧ ∃ k', s'.abuf.Results .uint64 l k' := by
  cases hwants : c.wants? with
  | none =>
    obtain ⟨hc, hrun⟩ := LockOp.run_of_not_wants (b := b) (s := s) hwants hp real
    rw [h] at hrun
    cases hrun
    split
    · simpa [lockCalls, hc, lockLog, attempts, hwants] using hlog
    · exact ⟨rfl, k, hlog⟩
  | some m =>
    obtain ⟨call, hc, hrun⟩ := LockOp.run_of_wants (b := b) (p := p) hwants real
    rw [hrun, acquireCall] at h
    split at h
    · next hzero =>
      cases h
      rw [if_pos hzero]
      refine ⟨by simp [lockCalls, hc, LockState.really], ?_⟩
      simpa [lockLog, attempts, hwants] using hlog.push m real.toInt64.toUInt64.toNat
    next hzero =>
    rw [if_neg hzero]
    rw [if_pos (by omega), bind_eq_ok] at h
    obtain ⟨⟨v, a⟩, hpop, hs⟩ := h
    cases hs
    obtain rfl := Abuf.popType_eq_ok hpop
    exact ⟨rfl, _, ⟨hlog.holds.pushed, hlog.holds.entry⟩, rfl⟩

/-- A lock operation of phase 0 is added to the history, any other operation changes nothing
in it. -/
theorem LockTracks.op (h : LockTracks t0 as xs t) (hp : 0 ≤ t.sei.p)
    (hop : t.op env b o = .ok (r, t')) :
    LockTracks t0 as (if t.sei.p = 0 then xs ++ (lockPart env b).of [o] else xs) t' := by
  obtain ⟨zs, k, hzs, hresults⟩ := h.record
  cases ho : (lockPart env b).pick o with
  | none =>
    have hlocks := Tmi.op_locks ho hop
    have hof : (lockPart env b).of [o] = [] := by simp [Part.of, ho]
    rw [hof, List.append_nil, ite_self]
    exact ⟨hlocks ▸ h.calls, ⟨zs, k, hzs, hlocks ▸ hresults⟩, h.aborted⟩
  | some x =>
    have hof : (lockPart env b).of [o] = [x] := by simp [Part.of, ho]
    cases o with
    | lock c real =>
      cases ho
      simp only [Tmi.op, bind_eq_ok] at hop
      obtain ⟨⟨q, l⟩, hrun, ht⟩ := hop
      cases ht
      have htracks := LockOp.run_tracks hp hresults hrun
      rw [hof]
      split at htracks
      · next hzero =>
        rw [if_pos hzero]
        refine ⟨?_, ⟨zs, k, hzs, ?_⟩, h.aborted⟩
        · rw [← List.append_assoc, lockCalls_append, ← List.append_assoc, ← h.calls]
          exact htracks.1
        · rw [← List.append_assoc, lockLog_append]
          exact htracks.2
      · next hzero =>
        rw [if_neg hzero]
        obtain ⟨k', hresults'⟩ := htracks.2
        exact ⟨htracks.1.trans h.calls, ⟨zs, k', hzs, hresults'⟩, h.aborted⟩
    | _ => cases ho

/-- An attempt that is given up still holds what it has taken. -/
theorem LockTracks.giveUp {zs : List (LockOp × Int32)} {k : Nat} (h : LockTracks t0 as xs t)
    (hcalls : t'.locks.calls = t.locks.calls) (hzs : zs ⊆ as.flatMap Aborted.ops ++ xs)
    (hresults : t'.locks.abuf.Results .uint64 (lockLog zs) k) :
    LockTracks t0 (as ++ [⟨xs, t'.locks.calls⟩]) [] t' := by
  have hops : (as ++ [Aborted.mk xs t'.locks.calls]).flatMap Aborted.ops =
      as.flatMap Aborted.ops ++ xs := by
    simp
  refine ⟨?_, ⟨zs, k, hops ▸ hzs, by simpa using hresults⟩, fun a ha m hm => ?_⟩
  · rw [hops, List.append_nil, hcalls, h.calls]
  · rcases List.mem_append.mp ha with ha | ha
    · exact h.aborted a ha m hm
    · obtain rfl := List.mem_singleton.mp ha
      show m ∈ heldAfter ∅ t'.locks.calls
      rw [hcalls, h.calls, heldAfter_append, mem_heldAfter_lockCalls, acquired_append]
      exact .inr (List.mem_append_right _ hm)

theorem LockRun.tracks (h : LockRun env b rbp t0 as xs t) (hbetween : t0.Between b n) :
    LockTracks t0 as xs t := by
  induction h with
  | begin => exact ⟨by simp [Tmi.seiBegin, Tmi.setWorld, lockCalls],
      ⟨[], 0, List.nil_subset _, hbetween.abuf.results⟩, fun _ ha => absurd ha List.not_mem_nil⟩
  | op h hop ih => exact ih.op (h.inTransaction.within hbetween).p_nonneg hop
  | @reexecute as xs t t' h hcommit ih =>
    rcases Tmi.seiCommit_cases hcommit with ⟨_, _, hswitch⟩ | ⟨hnext, _⟩ | ⟨hnext, _⟩
    · simp only [Tmi.switchPhase, bind_eq_ok, pure_eq_ok, Except.ok.injEq] at hswitch
      obtain ⟨_, _, rfl⟩ := hswitch
      obtain ⟨zs, k, hzs, hresults⟩ := ih.record
      exact ⟨ih.calls, ⟨zs, 0, hzs, hresults.rewind⟩, ih.aborted⟩
    · cases hnext
    · cases hnext
  | @retry as xs t t' h hcommit ih =>
    rcases Tmi.seiCommit_cases hcommit with ⟨hnext, _⟩ | ⟨_, _, w, _, hretry⟩ | ⟨hnext, _⟩
    · cases hnext
    · simp only [Tmi.retryCommit, bind_eq_ok, pure_eq_ok, Except.ok.injEq] at hretry
      obtain ⟨_, _, rfl⟩ := hretry
      exact ih.giveUp rfl (List.nil_subset _) (Abuf.empty_clean _).results
    · cases hnext
  | @sigsegv as xs t t' h hsegv ih =>
    simp only [Tmi.protectHandler, bind_eq_ok, pure_eq_ok, Except.ok.injEq] at hsegv
    obtain ⟨_, _, _, _, rfl⟩ := hsegv
    obtain ⟨zs, k, hzs, hresults⟩ := ih.record
    exact ih.giveUp rfl (List.append_subset.mpr
      ⟨List.subset_append_of_subset_left _ hzs, List.subset_append_right _ _⟩) hresults

/-- After the commit the record has been released, entries of attempts given up included. -/
theorem LockTracks.committed (h : LockTracks t0 as xs t)
    (hcommit : t.seiCommit env b = .ok (.committed, t')) :
    ∃ zs, zs ⊆ as.flatMap Aborted.ops ∧ t'.locks.calls = t0.locks.calls ++
      (lockCalls (as.flatMap Aborted.ops ++ xs) ++
        (acquired (zs ++ xs)).map fun m => .unlock m 0) := by
  rcases Tmi.seiCommit_cases hcommit with ⟨hnext, _⟩ | ⟨hnext, _⟩ | ⟨_, _, w, _, hleave⟩
  · cases hnext
  · cases hnext
  · simp only [Tmi.leave, bind_eq_ok, pure_eq_ok, Except.ok.injEq] at hleave
    obtain ⟨_, _, l, hrelease, rfl⟩ := hleave
    obtain ⟨zs, k, hzs, hresults⟩ := h.record
    obtain ⟨l', hrelease', _, hcalls⟩ := LockState.release_spec (b := b) hresults
    have hl : l = l' := Except.ok.inj (hrelease.symm.trans hrelease')
    refine ⟨zs, hzs, ?_⟩
    rw [← List.append_assoc, ← h.calls, ← hcalls, ← hl]
    rfl

end Runs

end LibSei
