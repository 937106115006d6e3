-- SUMMARY: `abuf_try_cmp_heap` with every assignment to the `poped` counters, and that it answers and leaves the logs as its checks say.
import LibSei.Abuf.CmpHeapNway

/-!
# The counters of the comparison

`abuf_try_cmp_heap` walks through both logs by their own `poped` counters, so on every way out
the counters have to be written back. Here it is followed assignment by assignment.
`abuf_try_cmp_heap_nway` walks by an index of its own and needs no such treatment.
-/

namespace LibSei

open Memory Control

namespace Abuf

/-- An assignment to `abuf->poped`. -/
def setPoped (a : Abuf) (poped : Nat) : Abuf := { a with poped := poped }

@[simp] theorem setPoped_setPoped (a : Abuf) (i j : Nat) : (a.setPoped i).setPoped j = a.setPoped j :=
  rfl

@[simp] theorem setPoped_entryAt (a : Abuf) (i j : Nat) : (a.setPoped i).entryAt j = a.entryAt j :=
  rfl

@[simp] theorem setPoped_findDuplicate (a : Abuf) (i ce n : Nat) :
    (a.setPoped i).findDuplicate ce n = a.findDuplicate ce n := by
  induction n with
  | zero => rfl
  | succ n ih =>
    rw [findDuplicate, findDuplicate, ih]
    rfl

namespace Cursors

/-- A way out of `abuf_try_cmp_heap`: both counters are written back, then it returns `r`. -/
def leave (saved1 saved2 : Nat) (a1 a2 : Abuf) (r : Bool) : Exec (Bool × Abuf × Abuf) :=
  return (r, a1.setPoped saved1, a2.setPoped saved2)

/-- The loop over the conflicts. -/
def tryConflicts (saved1 saved2 : Nat) (a1 a2 : Abuf) : List Nat → Exec (Bool × Abuf × Abuf)
  | [] => leave saved1 saved2 a1 a2 true
  | ce :: entry =>
      if a1.findDuplicate ce a1.pushed then tryConflicts saved1 saved2 a1 a2 entry
      else leave saved1 saved2 a1 a2 false

/-- The entry loop and what follows it, for at most `n` iterations. -/
def tryEntries (saved1 saved2 : Nat) (mem : Mem) :
    Nat → List Nat → Abuf → Abuf → Exec (Bool × Abuf × Abuf)
  | 0, entry, a1, a2 => tryConflicts saved1 saved2 a1 a2 entry
  | n + 1, entry, a1, a2 =>
      if a1.poped < a1.pushed then do
        let i := a1.poped
        let e1 ← a1.entryAt i
        let a1 := a1.setPoped (i + 1)
        let e2 ← a2.entryAt a2.poped
        let a2 := a2.setPoped (a2.poped + 1)
        if e1.size ≠ e2.size then leave saved1 saved2 a1 a2 false
        else if e1.addr ≠ e2.addr then leave saved1 saved2 a1 a2 false
        else match UIntTy.ofSize? e1.size with
          | none => leave saved1 saved2 a1 a2 false
          | some t =>
              if load mem e1.addr t.sizeof = e1.wvax t then
                tryEntries saved1 saved2 mem n entry a1 a2
              else if abufMaxConflicts ≤ entry.length then leave saved1 saved2 a1 a2 false
              else do
                inBounds (entry.length < abufMaxConflicts) "entry"
                tryEntries saved1 saved2 mem n (entry ++ [i]) a1 a2
      else tryConflicts saved1 saved2 a1 a2 entry

/-- `abuf_try_cmp_heap`. The loop has as many iterations as there are entries. -/
def tryCmpHeap (b : Build) (a1 a2 : Abuf) (mem : Mem) : Exec (Bool × Abuf × Abuf) := do
  b.assert (b.redundancy = 2) "SEI_DMR_REDUNDANCY == 2"
  let savedPopedA1 := a1.poped
  let savedPopedA2 := a2.poped
  if a1.pushed ≠ a2.pushed then leave savedPopedA1 savedPopedA2 a1 a2 false
  else if a1.poped ≠ a2.poped then leave savedPopedA1 savedPopedA2 a1 a2 false
  else if a1.poped ≠ 0 then leave savedPopedA1 savedPopedA2 a1 a2 false
  else tryEntries savedPopedA1 savedPopedA2 mem a1.pushed [] a1 a2

section Exits

variable {b : Build} {a1 a2 : Abuf} {mem : Mem} {saved1 saved2 i j n : Nat} {entry : List Nat}

/-- Whatever the counters are on a way out, they are overwritten. -/
@[simp] theorem leave_setPoped (r : Bool) :
    leave saved1 saved2 (a1.setPoped i) (a2.setPoped j) r = leave saved1 saved2 a1 a2 r := rfl

/-- A body that is left with an answer of 0 or 1, on every way out through `leave`. -/
def answer (saved1 saved2 : Nat) (a1 a2 : Abuf) (x : Checks Unit) : Exec (Bool × Abuf × Abuf) :=
  x.verdict >>= leave saved1 saved2 a1 a2

theorem tryConflicts_eq : tryConflicts saved1 saved2 (a1.setPoped i) (a2.setPoped j) entry =
    answer saved1 saved2 a1 a2 (checkEach (fun ce =>
      Checks.unlessReturnZero (a1.findDuplicate ce a1.pushed = true)) entry) := by
  induction entry with
  | nil => rfl
  | cons ce entry ih =>
    have hfind : (a1.setPoped i).findDuplicate ce (a1.setPoped i).pushed =
        a1.findDuplicate ce a1.pushed := setPoped_findDuplicate a1 i ce a1.pushed
    rw [tryConflicts, hfind, checkEach_cons, Checks.unlessReturnZero]
    by_cases h : a1.findDuplicate ce a1.pushed = true
    · rw [if_pos h, require_of h, ok_bind, ih]
    · rw [if_neg h, require_of_not h]
      rfl

/-- The entry loop from entry `i` on. Wherever it is left, the counters it has moved are written
back. -/
theorem tryEntries_eq (h1 : a1.poped = 0) (h2 : a2.poped = 0) (hn : i + n = a1.pushed) :
    tryEntries saved1 saved2 mem n entry (a1.setPoped i) (a2.setPoped i) =
      answer saved1 saved2 a1 a2 (do
        let entry ← collect (tryCmpHeapVisit a1 a2 mem) tryCmpHeapRoom n i entry
        checkEach (fun ce =>
          Checks.unlessReturnZero (a1.findDuplicate ce a1.pushed = true)) entry) := by
  induction n generalizing i entry with
  | zero => exact tryConflicts_eq
  | succ n ih =>
    have hpoped : (a1.setPoped i).poped < (a1.setPoped i).pushed := by
      show i < a1.pushed
      omega
    have hnext := fun entry => @ih (i + 1) entry (by omega)
    rw [tryEntries, if_pos hpoped, collect_succ, tryCmpHeapVisit, h1, h2, Nat.zero_add, Nat.sub_zero]
    simp only [setPoped_entryAt, setPoped_setPoped, leave_setPoped]
    show (a1.entryAt i >>= fun e1 => a2.entryAt i >>= fun e2 => _) = _
    cases a1.entryAt i with
    | error s => rfl
    | ok e1 =>
      cases a2.entryAt i with
      | error s => rfl
      | ok e2 =>
        simp only [Checks.ofExec, ok_bind, Checks.unlessReturnZero]
        by_cases hsize : e1.size = e2.size
        swap
        · rw [if_pos hsize, require_of_not hsize]
          rfl
        by_cases haddr : e1.addr = e2.addr
        swap
        · rw [if_neg (not_not.mpr hsize), if_pos haddr, require_of hsize, require_of_not haddr]
          rfl
        rw [if_neg (not_not.mpr hsize), if_neg (not_not.mpr haddr), require_of hsize,
          require_of haddr, AbufEntry.switchConflict]
        cases UIntTy.ofSize? e1.size with
        | none => rfl
        | some t =>
          simp only [ok_bind, bne_iff_ne, ite_not]
          by_cases hsame : load mem e1.addr t.sizeof = e1.wvax t
          · rw [if_pos hsame, if_pos hsame]
            exact hnext entry
          rw [if_neg hsame, if_neg hsame, tryCmpHeapRoom, Checks.unlessReturnZero]
          by_cases hroom : entry.length < abufMaxConflicts
          · rw [if_neg (Nat.not_le.mpr hroom), inBounds_of hroom, require_of hroom]
            exact hnext (entry ++ [i])
          · rw [if_pos (Nat.not_lt.mp hroom), require_of_not hroom]
            rfl

/-- Followed through its assignments the comparison does what its checks say. -/
theorem tryCmpHeap_eq : tryCmpHeap b a1 a2 mem = Abuf.tryCmpHeap b a1 a2 mem := by
  have hchecks : Abuf.tryCmpHeap b a1 a2 mem =
      (b.assert (b.redundancy = 2) "SEI_DMR_REDUNDANCY == 2" >>= fun _ =>
        answer a1.poped a2.poped a1 a2 (tryCmpHeapChecks a1 a2 mem)) := rfl
  rw [tryCmpHeap, hchecks]
  congr 1
  funext _
  rw [tryCmpHeapChecks]
  simp only [Checks.unlessReturnZero]
  by_cases hpushed : a1.pushed = a2.pushed
  swap
  · rw [if_pos hpushed, require_of_not hpushed]
    rfl
  by_cases hsame : a1.poped = a2.poped
  swap
  · rw [if_neg (not_not.mpr hpushed), if_pos hsame, require_of hpushed, require_of_not hsame]
    rfl
  by_cases hzero : a1.poped = 0
  swap
  · rw [if_neg (not_not.mpr hpushed), if_neg (not_not.mpr hsame), if_pos hzero, require_of hpushed,
      require_of hsame, require_of_not hzero]
    rfl
  rw [if_neg (not_not.mpr hpushed), if_neg (not_not.mpr hsame), if_neg (not_not.mpr hzero),
    require_of hpushed, require_of hsame, require_of hzero]
  have h2 : a2.poped = 0 := hsame ▸ hzero
  have hself1 : a1.setPoped 0 = a1 := hzero ▸ rfl
  have hself2 : a2.setPoped 0 = a2 := h2 ▸ rfl
  have hloop := @tryEntries_eq a1 a2 mem a1.poped a2.poped 0 a1.pushed [] hzero h2 (Nat.zero_add _)
  rw [hself1, hself2] at hloop
  rw [hloop]
  simp only [ok_bind, hzero, Nat.sub_zero, Checks.unlessReturnZero]

end Exits

end Cursors

end Abuf

end LibSei
