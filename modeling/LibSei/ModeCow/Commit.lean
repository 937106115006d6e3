-- SUMMARY: The end of a transaction in copy-on-write mode: `sei_commit`, the pre-check `sei_try_commit` and `sei_rollback`.
import LibSei.ModeCow.Traversal

/-!
# Commit and rollback

Without CPU isolation `sei_commit` compares the phases itself and stops the process
when they differ. With CPU isolation the comparison is made by `sei_try_commit`, which
answers 0 when the transaction has to be rolled back and retried; `sei_commit` follows
an answer of 1.
-/

namespace LibSei

open Memory Control

namespace World

/-! ## Control-flow gates -/

/-- `cfc_alog` and `cfc_amog` for `n` phases from `i` on, up to the first that is not
let through. -/
def gates : Nat → Nat → (Nat → Cfc) → Bool × (Nat → Cfc)
  | 0, _, cf => (true, cf)
  | n + 1, i, cf =>
      let (r, c) := (cf i).gate
      let cf := Function.update cf i c
      if r then gates n (i + 1) cf else (false, cf)

theorem gates_succ (n i : Nat) (cf : Nat → Cfc) :
    gates (n + 1) i cf =
      if (cf i).gate.1 = true then gates n (i + 1) (Function.update cf i (cf i).gate.2)
      else (false, Function.update cf i (cf i).gate.2) := rfl

/-- The gates touch no phase but those they are for. -/
theorem gates_of_outside {n i j : Nat} {cf : Nat → Cfc} (hj : j < i ∨ i + n ≤ j) :
    (gates n i cf).2 j = cf j := by
  induction n generalizing i cf with
  | zero => rfl
  | succ n ih =>
    have hother : Function.update cf i (cf i).gate.2 j = cf j :=
      Function.update_of_ne (by omega) _ _
    rw [gates_succ]
    split
    · rw [ih (by omega), hother]
    · exact hother

/-- A phase that was let through passes the check. -/
theorem check_of_gates {n i : Nat} {cf : Nat → Cfc} (h : (gates n i cf).1 = true) :
    ∀ j, i ≤ j → j < i + n → ((gates n i cf).2 j).check = true := by
  induction n generalizing i cf with
  | zero =>
    intro j hlo hhi
    omega
  | succ n ih =>
    intro j hlo hhi
    rw [gates_succ] at h ⊢
    split at h
    · next hgate =>
      rw [if_pos hgate]
      rcases Nat.eq_or_lt_of_le hlo with rfl | hlt
      · rw [gates_of_outside (by omega), Function.update_self]
        exact Cfc.check_gate
      · exact ih h j hlt (by omega)
    · cases h

/-! ## sei_try_commit -/

/-- The logs after `abuf_rewind` in all phases. -/
def rewindAll (n : Nat) (cow : Nat → Abuf) : Nat → Abuf :=
  fun i => if i < n then (cow i).rewind else cow i

/-- The logs after `abuf_clean` in all phases. -/
def cleanAll (n : Nat) (cow : Nat → Abuf) : Nat → Abuf :=
  fun i => if i < n then (cow i).clean else cow i

/-- The comparison of the logs in `sei_try_commit`, where `cmp` compares two of them. -/
def tryCompareBy (cmp : Abuf → Abuf → Mem → Exec (Bool × Abuf × Abuf)) (b : Build) (n : Nat)
    (cow : Nat → Abuf) (mem : Mem) : Exec (Bool × (Nat → Abuf)) :=
  if n = 2 then do
    let (r, a0, a1) ← cmp (cow 0) (cow 1) mem
    return (r, Function.update (Function.update cow 0 a0) 1 a1)
  else Abuf.tryCmpHeapNway b cow n mem

/-- The comparison of the logs in `sei_try_commit`. -/
def tryCompare (b : Build) : Nat → (Nat → Abuf) → Mem → Exec (Bool × (Nat → Abuf)) :=
  tryCompareBy (Abuf.tryCmpHeap b) b

/-- `sei_try_commit`, where `compare` compares the logs. -/
def tryCommitBy (compare : Nat → (Nat → Abuf) → Mem → Exec (Bool × (Nat → Abuf))) (env : Env)
    (b : Build) (w : World) : Exec (Bool × World) := do
  let n := w.sei.redundancyLevel
  b.assert (w.sei.p = n - 1) "must be in final phase before commit"
  let (ok, cow) ← compare n (rewindAll n w.sei.cow) w.mem
  let w := { w with sei := { w.sei with cow := cow } }
  if ok = false then return (false, w)
  let (ok, cf) := gates n 0 w.sei.cf
  let w := { w with sei := { w.sei with cf := cf } }
  if ok = false then return (false, w)
  let ok ← w.sei.ibuf.correct env b w.mem
  if ok = false then return (false, w)
  let ok ← w.sei.wts.canFlush b
  if ok = false then return (false, w)
  let ok ← w.sei.tbin.canFlush
  return (ok, w)

/-- `sei_try_commit`. -/
def tryCommit (env : Env) (b : Build) (w : World) : Exec (Bool × World) :=
  tryCommitBy (tryCompare b) env b w

/-! ## What `sei_try_commit` leaves behind -/

section TryCommit

variable {env : Env} {b : Build} {n : Nat} {w w' : World}

/-- The comparison puts the counters of the logs back. -/
theorem tryCompare_frame {cow cow' : Nat → Abuf} {mem : Mem} {r : Bool}
    (h : tryCompare b n cow mem = .ok (r, cow')) : cow' = cow := by
  unfold tryCompare tryCompareBy at h
  split at h
  · simp only [Abuf.tryCmpHeap, bind_eq_ok, pure_eq_ok, Except.ok.injEq] at h
    obtain ⟨_, ⟨_, _, _, _, rfl⟩, h⟩ := h
    simp only [Prod.mk.injEq, Function.update_eq_self] at h
    exact h.2.symm
  · simp only [Abuf.tryCmpHeapNway, bind_eq_ok, pure_eq_ok, Except.ok.injEq, Prod.mk.injEq] at h
    obtain ⟨_, _, _, _, _, _, _, rfl⟩ := h
    funext k
    split <;> rfl

/-- What an answer of 1 says about the state. -/
structure Accepted (env : Env) (b : Build) (w : World) (cf : Nat → Cfc) : Prop where
  gated : (gates w.sei.redundancyLevel 0 w.sei.cf).1 = true
  cf : cf = (gates w.sei.redundancyLevel 0 w.sei.cf).2
  input : w.sei.ibuf.correct env b w.mem = .ok true
  deferred : w.sei.wts.canFlush b = .ok true
  frees : w.sei.tbin.canFlush = .ok true

/-- The pre-check changes only the logs' counters and the control-flow flags. -/
theorem tryCommit_spec {r : Bool} (h : w.tryCommit env b = .ok (r, w')) :
    ∃ cf, w' = { w with sei := { w.sei with
        cow := rewindAll w.sei.redundancyLevel w.sei.cow, cf := cf } } ∧
      (r = true → Accepted env b w cf) := by
  simp only [tryCommit, tryCommitBy, bind_eq_ok] at h
  obtain ⟨_, _, ⟨ok, cow⟩, hcompare, h⟩ := h
  obtain rfl := tryCompare_frame hcompare
  split at h
  · cases h
    exact ⟨_, rfl, fun hr => Bool.noConfusion hr⟩
  split at h
  · cases h
    exact ⟨_, rfl, fun hr => Bool.noConfusion hr⟩
  next hgates =>
  simp only [bind_eq_ok] at h
  obtain ⟨r1, hinput, h⟩ := h
  split at h
  · cases h
    exact ⟨_, rfl, fun hr => Bool.noConfusion hr⟩
  next hr1 =>
  simp only [bind_eq_ok] at h
  obtain ⟨r2, hdeferred, h⟩ := h
  split at h
  · cases h
    exact ⟨_, rfl, fun hr => Bool.noConfusion hr⟩
  next hr2 =>
  simp only [bind_eq_ok, pure_eq_ok, Except.ok.injEq, Prod.mk.injEq] at h
  obtain ⟨r3, hfrees, hr3, rfl⟩ := h
  rw [Bool.not_eq_false] at hgates hr1 hr2
  subst hr1 hr2
  refine ⟨_, rfl, fun hr => ?_⟩
  rw [hr3, hr] at hfrees
  exact ⟨hgates, rfl, hinput, hdeferred, hfrees⟩

/-- The control-flow flags of phases beyond the transaction's own are left alone. -/
theorem tryCommit_cf {r : Bool} (h : w.tryCommit env b = .ok (r, w')) :
    ∀ i, w.sei.redundancyLevel ≤ i → w'.sei.cf i = w.sei.cf i := by
  intro i hi
  simp only [tryCommit, tryCommitBy, bind_eq_ok] at h
  obtain ⟨_, _, ⟨ok, cow⟩, _, h⟩ := h
  split at h
  · cases h
    rfl
  have hgates : (gates w.sei.redundancyLevel 0 w.sei.cf).2 i = w.sei.cf i := gates_of_outside (by omega)
  split at h
  · cases h
    exact hgates
  simp only [bind_eq_ok] at h
  obtain ⟨_, _, h⟩ := h
  split at h
  · cases h
    exact hgates
  simp only [bind_eq_ok] at h
  obtain ⟨_, _, h⟩ := h
  split at h
  · cases h
    exact hgates
  simp only [bind_eq_ok, pure_eq_ok, Except.ok.injEq, Prod.mk.injEq] at h
  obtain ⟨_, _, _, rfl⟩ := h
  exact hgates

end TryCommit

/-! ## sei_commit -/

/-- The comparison of the logs in `sei_commit` without CPU isolation. -/
def compare (b : Build) (n : Nat) (cow : Nat → Abuf) (mem : Mem) : Exec (Nat → Abuf) :=
  if n = 2 then do
    let (a0, a1) ← Abuf.cmpHeap b (cow 0) (cow 1) mem
    return Function.update (Function.update cow 0 a0) 1 a1
  else Abuf.cmpHeapNway b cow n mem

/-- The checks of `sei_commit` that are made here only without CPU isolation. -/
def commitVerify (b : Build) (n : Nat) (s : Sei) (mem : Mem) : Exec Sei :=
  if b.cpuIsolation then return s
  else do
    let (ok, cf) := gates n 0 s.cf
    failIfn (ok = true) "control flow error"
    let cow ← compare b n s.cow mem
    return { s with cf := cf, cow := cow }

/-- A check after the heavy operations. With CPU isolation it ends in `abort`. -/
def finalCheck (b : Build) (c : Prop) [Decidable c] (text : String) : Exec Unit :=
  if b.cpuIsolation then require c (.abort text) else b.assert c text

/-- `sei_commit`. -/
def commit (env : Env) (b : Build) (w : World) : Exec World := do
  let n := w.sei.redundancyLevel
  let s ← commitVerify b n { w.sei with p := -1 } w.mem
  let (wts, machine) ← s.wts.flushWith (runCallback env b) b w.machine
  let (tbin, machine) ← s.tbin.flush env machine
  let talloc ← s.talloc.clean b
  checkLoop (fun i => finalCheck b ((s.cf i).check = true) "control flow error") n 0
  let r ← s.ibuf.correct env b machine.mem
  finalCheck b (r = true) "input message modified"
  return {
    sei := { s with
      cow := cleanAll n s.cow
      wts := wts, tbin := tbin, talloc := talloc, obuf := s.obuf.close }
    machine := machine }

/-- `__sei_commit` succeeds: `sei_commit` alone, or after a positive answer of
`sei_try_commit` with CPU isolation. -/
def Committed (env : Env) (b : Build) (w wc : World) : Prop :=
  (b.cpuIsolation = false ∧ w.commit env b = .ok wc) ∨
  (b.cpuIsolation = true ∧ ∃ w1, w.tryCommit env b = .ok (true, w1) ∧ w1.commit env b = .ok wc)

/-! ## sei_rollback -/

/-- `sei_rollback`. -/
def rollback (env : Env) (b : Build) (w : World) : Exec World := do
  let n := w.sei.redundancyLevel
  let (a0, mem) ← (w.sei.cow 0).restoreFiltered b w.sei.talloc w.mem
  let (talloc, machine) := w.sei.talloc.rollback env { w.machine with mem := mem }
  return {
    sei := { w.sei with
      p := 0
      cow := cleanAll n (Function.update w.sei.cow 0 a0)
      tbin := w.sei.tbin.reset
      talloc := talloc
      obuf := w.sei.obuf.reset
      ibuf := w.sei.ibuf.reset
      wts := w.sei.wts.reset
      cf := fun i => if i < n then Cfc.reset else w.sei.cf i }
    machine := machine }

/-- Recovery in the retry loop of `__sei_commit` and in the handler of `SIGSEGV`:
`sei_setp(sei, -1)`, then `sei_rollback`. -/
def recover (env : Env) (b : Build) (w : World) : Exec World :=
  rollback env b { w with sei := { w.sei with p := -1 } }

/-- The memory after a rollback: a filtered restore of the log of phase 0. The frees of
the allocations stay inside the blocks. -/
theorem rollback_mem (env : Env) (b : Build) {w : World} {ws : List Write}
    (h : (w.sei.cow 0).Holds ws) (hsized : Abuf.Sized ws) :
    ∃ w', w.rollback env b = .ok w' ∧ ∀ a, ¬ w.sei.talloc.InBlock env a →
      w'.mem a = runWrites (Abuf.filteredWrites w.sei.talloc.addrInRange ws w.mem) w.mem a := by
  rw [rollback, Abuf.restoreFiltered_spec b h hsized, ok_bind]
  exact ⟨_, rfl, fun a ha => Talloc.rollback_mem_outside ha⟩

end World

end LibSei
