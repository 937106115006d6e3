-- SUMMARY: `abuf_swap`: exchanging a log with memory, newest entry first, as an instance of undo logs.
import LibSei.Abuf.Basic
import LibSei.Memory.UndoLog

/-!
# Exchanging a log with memory

`abuf_swap` walks the log from its last entry to its first and exchanges each
entry's value with the memory at its address. On the undo log of a phase this
restores the memory the phase started from and leaves in each entry the value
its write had stored.
-/

namespace LibSei

open Memory

namespace Abuf

/-- `ABUF_SWAP`. -/
def swapEntry (t : UIntTy) (e : AbufEntry) (mem : Mem) : AbufEntry × Mem :=
  (e.setWvax t (load mem e.addr t.sizeof), store mem e.addr t.sizeof (e.wvax t))

/-- The loop of `abuf_swap` over entries `i - 1, …, 0`. -/
def swapLoop (b : Build) : Nat → (Nat → AbufEntry) → Mem → Exec ((Nat → AbufEntry) × Mem)
  | 0, buf, mem => return (buf, mem)
  | i + 1, buf, mem =>
      match UIntTy.ofSize? (buf i).size with
      | some t =>
          let (e, mem) := swapEntry t (buf i) mem
          swapLoop b i (Function.update buf i e) mem
      | none => do
          b.assert False "unknown case"
          swapLoop b i buf mem

def swap (b : Build) (a : Abuf) (mem : Mem) : Exec (Abuf × Mem) := do
  b.assert (a.poped = 0) "abuf->poped == 0"
  let (buf, mem) ← swapLoop b a.pushed a.buf mem
  return ({ a with buf := buf }, mem)

/-! ## The log as an undo log

A cell is an address with a width; an entry of the array is read as the cell it
names with the value it holds. -/

/-- Reading the cell `(addr, size)`. -/
def getCell (c : Nat × Nat) (mem : Mem) : Nat := load mem c.1 c.2

/-- Writing the cell `(addr, size)`. -/
def putCell (c : Nat × Nat) (v : Nat) (mem : Mem) : Mem := store mem c.1 c.2 v

theorem putCell_getCell (c : Nat × Nat) (v : Nat) (mem : Mem) :
    putCell c (getCell c mem) (putCell c v mem) = mem := store_load_store _ _ _ _

end Abuf

/-- The cell an entry names, with the value it holds. -/
def AbufEntry.cell (e : AbufEntry) : (Nat × Nat) × Nat := ((e.addr, e.size), e.val)

theorem AbufEntry.Holds.cell_eq {e : AbufEntry} {w : Write} (h : e.Holds w) :
    e.cell = ((w.addr, w.size), w.val) := by
  rw [AbufEntry.cell, h.addr, h.size, h.val]

theorem AbufEntry.Holds.of_cell {e : AbufEntry} {w : Write}
    (h : e.cell = ((w.addr, w.size), w.val)) : e.Holds w := by
  simp only [AbufEntry.cell, Prod.mk.injEq] at h
  exact ⟨h.1.1, h.1.2, h.2⟩

namespace Abuf

/-- Exchanging an entry is one exchange of its cell with the memory. -/
theorem swapEntry_cell {t : UIntTy} {e : AbufEntry} (ht : UIntTy.ofSize? e.size = some t)
    (mem : Mem) :
    (swapEntry t e mem).1.cell = (e.cell.1, getCell e.cell.1 mem) ∧
      (swapEntry t e mem).2 = putCell e.cell.1 e.cell.2 mem := by
  have hsize := UIntTy.sizeof_of_ofSize? ht
  constructor
  · have hval := AbufEntry.val_setWvax ht (load mem e.addr t.sizeof)
    rw [Nat.mod_eq_of_lt (load_lt _ _ _), hsize] at hval
    simp only [swapEntry, AbufEntry.cell, getCell, hsize]
    exact Prod.ext rfl hval
  · simp only [swapEntry, AbufEntry.cell, putCell, hsize, AbufEntry.val_of_ofSize? ht]

/-- On entries of known sizes the loop is the exchange of the undo log. Entries at
or above `k` are not touched. -/
theorem swapLoop_spec (b : Build) {k : Nat} {buf : Nat → AbufEntry} (mem : Mem)
    (hsize : ∀ i < k, (UIntTy.ofSize? (buf i).size).isSome) :
    ∃ buf', swapLoop b k buf mem =
        .ok (buf', (UndoLog.exchange getCell putCell k (fun i => (buf i).cell) mem).2) ∧
      (∀ i, (buf' i).cell =
        (UndoLog.exchange getCell putCell k (fun i => (buf i).cell) mem).1 i) ∧
      (∀ i, k ≤ i → buf' i = buf i) := by
  induction k generalizing buf mem with
  | zero => exact ⟨buf, rfl, fun _ => rfl, fun _ _ => rfl⟩
  | succ k ih =>
    obtain ⟨t, ht⟩ := Option.isSome_iff_exists.mp (hsize k (by omega))
    obtain ⟨hcell, hmem⟩ := swapEntry_cell ht mem
    -- the array after this iteration, read as cells
    have hupd : (fun i => (Function.update buf k (swapEntry t (buf k) mem).1 i).cell) =
        Function.update (fun i => (buf i).cell) k
          ((buf k).cell.1, getCell (buf k).cell.1 mem) := by
      funext i
      by_cases hik : i = k
      · subst hik
        rw [Function.update_self, Function.update_self, hcell]
      · rw [Function.update_of_ne hik, Function.update_of_ne hik]
    have hsize' : ∀ i < k, (UIntTy.ofSize?
        (Function.update buf k (swapEntry t (buf k) mem).1 i).size).isSome := by
      intro i hi
      rw [Function.update_of_ne (by omega)]
      exact hsize i (by omega)
    obtain ⟨buf', hrun, hlog, habove⟩ := ih (swapEntry t (buf k) mem).2 hsize'
    rw [hupd, hmem] at hrun
    simp only [hupd, hmem] at hlog
    refine ⟨buf', ?_, hlog, fun i hi => ?_⟩
    · simp only [swapLoop, ht]
      rw [hmem]
      exact hrun
    · rw [habove i (by omega), Function.update_of_ne (by omega)]

/-! ## Swapping the undo log of a phase -/

/-- Every write of the list has a width the log knows. -/
def Sized (ws : List Write) : Prop := ∀ w ∈ ws, (UIntTy.ofSize? w.size).isSome

/-- What writes overwrite has their widths. -/
theorem Sized.olds {ws : List Write} {m : Mem} (h : Sized ws) : Sized (olds ws m) := by
  intro x hx
  obtain ⟨i, hi', rfl⟩ := List.mem_iff_getElem.mp hx
  have hi : i < ws.length := by simpa using hi'
  rw [getElem_olds hi]
  exact h ws[i] (List.getElem_mem hi)

/-- A log that holds what each write overwrote records the run of the writes. -/
theorem Holds.records {a : Abuf} {ws : List Write} {m : Mem} (h : a.Holds (olds ws m)) :
    UndoLog.Records getCell putCell (fun i => (a.buf i).cell) (memBefore ws m) ws.length where
  old i hi := by
    have hi' : i < (olds ws m).length := by simpa using hi
    have hheld := h.entry i hi'
    rw [getElem_olds hi] at hheld
    simp only [hheld.cell_eq]
    rfl
  step i hi := by
    have hi' : i < (olds ws m).length := by simpa using hi
    have hheld := h.entry i hi'
    rw [getElem_olds hi] at hheld
    refine ⟨ws[i].val, ?_⟩
    rw [memBefore_succ hi]
    simp only [hheld.cell_eq]
    rfl

/-- Swapping the undo log of a phase restores the memory the phase started from and
turns the log into the record of what the phase wrote. -/
theorem swap_spec (b : Build) {a : Abuf} {ws : List Write} {m : Mem}
    (h : a.Holds (olds ws m)) (hsized : Sized ws) (hpoped : a.poped = 0) :
    ∃ a', a.swap b (runWrites ws m) = .ok (a', m) ∧ a'.Holds ws ∧
      a'.pushed = a.pushed ∧ a'.poped = 0 ∧ a'.maxSize = a.maxSize ∧
      ∀ i, a.pushed ≤ i → a'.buf i = a.buf i := by
  have hlen : a.pushed = ws.length := by rw [h.pushed, length_olds]
  have hsize : ∀ i < a.pushed, (UIntTy.ofSize? (a.buf i).size).isSome := by
    intro i hi
    have hi' : i < (olds ws m).length := by rw [length_olds]; omega
    have hheld := h.entry i hi'
    rw [getElem_olds (by omega)] at hheld
    rw [hheld.size]
    exact hsized ws[i] (List.getElem_mem _)
  obtain ⟨buf', hrun, hlog, habove⟩ := swapLoop_spec b (runWrites ws m) hsize
  have hstate := UndoLog.exchange_state putCell_getCell h.records
  rw [memBefore_length, memBefore_zero, ← hlen] at hstate
  rw [hstate] at hrun
  refine ⟨{ a with buf := buf' }, ?_, ⟨hlen, fun i hi => ?_⟩, rfl, hpoped, rfl, habove⟩
  · rw [Abuf.swap, Build.assert_of hpoped, Control.ok_bind, hrun]
    rfl
  · apply AbufEntry.Holds.of_cell
    have hi' : i < (olds ws m).length := by simpa using hi
    have hold := h.entry i hi'
    rw [getElem_olds hi] at hold
    have hexch := UndoLog.exchange_log putCell_getCell h.records hi
    rw [memBefore_length] at hexch
    show (buf' i).cell = _
    rw [hlog i, hlen, hexch, memBefore_succ hi]
    simp only [hold.cell_eq, getCell]
    exact congrArg _ (ws[i].load_apply _)

end Abuf

end LibSei
