-- SUMMARY: Logs that record lists of writes: their conflicts and duplicates in terms of the writes they hold.
import LibSei.Abuf.CmpHeapNway
import LibSei.Abuf.Swap

/-!
# Logs of writes

The comparisons read entries; the properties are about writes. For logs that record
lists of writes, what the comparisons look at is restated here in terms of the writes:
the locations, which writes memory no longer shows, and which share their address.
-/

namespace LibSei

open Memory

/-! ## Lists of writes against a memory -/

/-- The memory does not show the value of the write. -/
def Mismatch (mem : Mem) (w : Write) : Prop := load mem w.addr w.size ≠ w.val

instance (mem : Mem) (w : Write) : Decidable (Mismatch mem w) := inferInstanceAs (Decidable (_ ≠ _))

/-- How many of the writes the memory does not show. -/
def mismatches (mem : Mem) (ws : List Write) : Nat := ws.countP (fun w => decide (Mismatch mem w))

/-- Write `i` is followed by a write with the same start address. -/
def Superseded (ws : List Write) (i : Nat) : Prop :=
  ∃ (j : Nat) (hi : i < ws.length) (hj : j < ws.length), i < j ∧ ws[j].addr = ws[i].addr

/-- Write `i` shares its start address with another write. -/
def Duplicated (ws : List Write) (i : Nat) : Prop :=
  ∃ (j : Nat) (hi : i < ws.length) (hj : j < ws.length), j ≠ i ∧ ws[j].addr = ws[i].addr

/-- A byte whose last write memory contradicts makes that write a mismatch. -/
theorem mismatch_of_byte_ne {mem : Mem} {w : Write} {b : Nat} (hcov : w.Covers b)
    (hne : mem b ≠ w.byteAt b) : Mismatch mem w :=
  fun heq => hne (Write.load_eq_val_iff.mp heq b hcov)

namespace Abuf

/-- The log names the locations of `ws`; the values are left open. -/
structure Shaped (a : Abuf) (ws : List Write) : Prop where
  pushed : a.pushed = ws.length
  addr : ∀ i (hi : i < ws.length), (a.buf i).addr = ws[i].addr
  size : ∀ i (hi : i < ws.length), (a.buf i).size = ws[i].size

theorem Holds.shaped {a : Abuf} {ws : List Write} (h : a.Holds ws) : a.Shaped ws :=
  ⟨h.pushed, fun i hi => (h.entry i hi).addr, fun i hi => (h.entry i hi).size⟩

/-- An undo log names the locations of the writes it undoes. -/
theorem Holds.shaped_of_olds {a : Abuf} {ws : List Write} {m : Mem} (h : a.Holds (olds ws m)) :
    a.Shaped ws := by
  have hentry : ∀ i (hi : i < ws.length), (a.buf i).Holds (ws[i].held (memBefore ws m i)) := by
    intro i hi
    have hi' : i < (olds ws m).length := by simpa using hi
    have := h.entry i hi'
    rwa [getElem_olds hi] at this
  exact ⟨by rw [h.pushed, length_olds], fun i hi => (hentry i hi).addr,
    fun i hi => (hentry i hi).size⟩

section Translate

variable {a a' : Abuf} {ws ws' : List Write} {mem : Mem} {i : Nat}

/-- Searching the log for another entry with the address of entry `i`. -/
theorem Shaped.exists_sameAddr (h : a.Shaped ws) (hi : i < ws.length) (P : Nat → Prop) :
    (∃ j < a.pushed, P j ∧ (a.buf j).addr = (a.buf i).addr) ↔
      ∃ (j : Nat) (hi : i < ws.length) (hj : j < ws.length), P j ∧ ws[j].addr = ws[i].addr := by
  constructor
  · rintro ⟨j, hj, hP, haddr⟩
    have hj' : j < ws.length := h.pushed ▸ hj
    rw [h.addr j hj', h.addr i hi] at haddr
    exact ⟨j, hi, hj', hP, haddr⟩
  · rintro ⟨j, _, hj, hP, haddr⟩
    refine ⟨j, h.pushed ▸ hj, hP, ?_⟩
    rw [h.addr j hj, h.addr i hi, haddr]

theorem Shaped.hasLater (h : a.Shaped ws) (hi : i < ws.length) :
    a.HasLater i ↔ Superseded ws i := h.exists_sameAddr hi (i < ·)

theorem Shaped.hasDuplicate (h : a.Shaped ws) (hi : i < ws.length) :
    a.HasDuplicate i ↔ Duplicated ws i := h.exists_sameAddr hi (· ≠ i)

theorem Shaped.known (h : a.Shaped ws) (hsized : Sized ws) :
    ∀ i < a.pushed, (a.buf i).Known := by
  intro i hi
  have hi' : i < ws.length := h.pushed ▸ hi
  rw [AbufEntry.Known, h.size i hi']
  exact hsized _ (List.getElem_mem hi')

/-- Two logs name the same locations exactly when the writes do. -/
theorem Shaped.sameLocation_iff (h : a.Shaped ws) (h' : a'.Shaped ws') :
    (a'.pushed = a.pushed ∧ ∀ i < a.pushed, SameLocation a a' i) ↔ shapes ws' = shapes ws := by
  rw [shapes_eq_iff, h.pushed, h'.pushed]
  refine and_congr_right fun hlen => ?_
  constructor
  · intro hloc i hi hi'
    obtain ⟨haddr, hsize⟩ := hloc i hi
    rw [h.addr i hi, h'.addr i hi'] at haddr
    rw [h.size i hi, h'.size i hi'] at hsize
    exact ⟨haddr.symm, hsize.symm⟩
  · intro heq i hi
    have hi' : i < ws'.length := by omega
    obtain ⟨haddr, hsize⟩ := heq i hi hi'
    refine ⟨?_, ?_⟩
    · rw [h.addr i hi, h'.addr i hi', haddr]
    · rw [h.size i hi, h'.size i hi', hsize]

/-- A log of the same locations passes the checks on its entries. -/
theorem Shaped.entryMatches {b : Build} (h : a.Shaped ws) (h' : a'.Shaped ws')
    (hshape : shapes ws' = shapes ws) (hi : i < a.pushed) : EntryMatches b a a' i := by
  obtain ⟨hpushed, hloc⟩ := (h.sameLocation_iff h').mpr hshape
  exact ⟨Nat.lt_of_lt_of_le (hpushed ▸ hi) a'.pushed_le, (hloc i hi).addr, .inr (hloc i hi).size⟩

theorem Holds.conflict (h : a.Holds ws) (hsized : Sized ws) (hi : i < ws.length) :
    (a.buf i).conflict mem = decide (Mismatch mem ws[i]) := by
  obtain ⟨t, ht⟩ := Option.isSome_iff_exists.mp (hsized _ (List.getElem_mem hi))
  have hentry := h.entry i hi
  have hte : UIntTy.ofSize? (a.buf i).size = some t := by rw [hentry.size, ht]
  have hval : (a.buf i).wvax t = ws[i].val := by
    rw [← AbufEntry.val_of_ofSize? hte, hentry.val]
  rw [Bool.eq_iff_iff, decide_eq_true_iff]
  simp only [AbufEntry.conflict, hte, hval, hentry.addr, UIntTy.sizeof_of_ofSize? ht, bne_iff_ne]
  rfl

/-- The conflicts of a log are the writes the memory does not show. -/
theorem Holds.mem_conflicts (h : a.Holds ws) (hsized : Sized ws) :
    i ∈ a.conflicts mem ↔ ∃ hi : i < ws.length, Mismatch mem ws[i] := by
  rw [Abuf.mem_conflicts, h.pushed]
  constructor
  · rintro ⟨hi, hconf⟩
    rw [h.conflict hsized hi, decide_eq_true_iff] at hconf
    exact ⟨hi, hconf⟩
  · rintro ⟨hi, hmis⟩
    rw [h.conflict hsized hi, decide_eq_true_iff]
    exact ⟨hi, hmis⟩

theorem Holds.length_conflictsBelow (h : a.Holds ws) (hsized : Sized ws) {k : Nat}
    (hk : k ≤ ws.length) :
    (a.conflictsBelow mem k).length = mismatches mem (ws.take k) := by
  induction k with
  | zero => rfl
  | succ k ih =>
    have hstep : a.conflictsBelow mem (k + 1) =
        a.conflictsBelow mem k ++ [k].filter (fun i => (a.buf i).conflict mem) := by
      rw [conflictsBelow, List.range'_1_concat, List.filter_append, Nat.zero_add, conflictsBelow]
    rw [hstep, List.length_append, ih (by omega), List.take_succ_eq_append_getElem (by omega),
      mismatches, mismatches, List.countP_append, ← List.countP_eq_length_filter,
      List.countP_singleton, List.countP_singleton, h.conflict hsized (by omega)]

theorem Holds.length_conflicts (h : a.Holds ws) (hsized : Sized ws) :
    (a.conflicts mem).length = mismatches mem ws := by
  rw [conflicts, h.pushed, h.length_conflictsBelow hsized (le_refl _), List.take_length]

end Translate

end Abuf

end LibSei
