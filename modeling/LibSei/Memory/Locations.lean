-- SUMMARY: Writes to locations that do not overlap: which of them the memory still shows, and how many it does not.
import LibSei.Memory.Writes
import Mathlib.Data.List.Dedup

/-!
# Locations

A program that gives each of its variables one width writes to locations that coincide or
lie apart. Then only a later write to the same location can hide a write, and the writes
that are hidden are the repeated ones.
-/

namespace Memory

/-- No byte is covered by both writes. -/
def Apart (x y : Write) : Prop := ∀ a, x.Covers a → ¬ y.Covers a

/-- Any two writes go to the same location or lie apart. -/
def OneWidth (ws : List Write) : Prop := ∀ x ∈ ws, ∀ y ∈ ws, x.shape = y.shape ∨ Apart x y

variable {ws : List Write} {m : Mem} {a i : Nat}

/-- A write that the memory does not show is followed by one to the same location. -/
theorem OneWidth.exists_later (h : OneWidth ws) (hi : i < ws.length)
    (hne : load (runWrites ws m) ws[i].addr ws[i].size ≠ ws[i].val) :
    ∃ (j : Nat) (hj : j < ws.length), i < j ∧ ws[j].shape = ws[i].shape := by
  obtain ⟨a, hcov, hbyte⟩ : ∃ a, ws[i].Covers a ∧ runWrites ws m a ≠ ws[i].byteAt a := by
    by_contra hall
    push Not at hall
    exact hne (Write.load_eq_val_iff.mpr hall)
  obtain ⟨j, hlast⟩ := exists_lastWriter_of_covers (List.getElem_mem hi) hcov
  have ⟨hj, hcovj, hnone⟩ := hlast
  rcases Nat.lt_trichotomy i j with hlt | rfl | hgt
  · refine ⟨j, hj, hlt, ?_⟩
    exact (h _ (List.getElem_mem hj) _ (List.getElem_mem hi)).resolve_right
      fun hapart => hapart a hcovj hcov
  · exact absurd (hlast.runWrites hj) hbyte
  · exact absurd hcov (hnone i hi hgt)

/-- What is followed by its own location is counted by the repetitions. -/
theorem countP_add_dedup_le {P : Write → Bool}
    (h : ∀ i (hi : i < ws.length), P ws[i] = true → ws[i].shape ∈ shapes (ws.drop (i + 1))) :
    ws.countP P + (shapes ws).dedup.length ≤ ws.length := by
  induction ws with
  | nil => simp [shapes]
  | cons w ws ih =>
    have hrest := ih fun i hi hP => h (i + 1) (by simpa using hi) (by simpa using hP)
    have hcons : shapes (w :: ws) = w.shape :: shapes ws := rfl
    rw [hcons, List.length_cons]
    by_cases hmem : w.shape ∈ shapes ws
    · rw [List.dedup_cons_of_mem hmem]
      have hcount := List.countP_cons (p := P) (a := w) (l := ws)
      split at hcount <;> omega
    · -- the first write is the only one to its location, so it is not counted
      have hP : ¬ P w = true := fun hP => hmem (h 0 (by simp) hP)
      rw [List.dedup_cons_of_notMem hmem, List.length_cons, List.countP_cons_of_neg hP]
      omega

/-- A write that is apart from all before it finds the first value. -/
theorem memBefore_of_apart (h : ws.Pairwise Apart) (hi : i < ws.length) (hcov : ws[i].Covers a) :
    memBefore ws m i a = m a := by
  refine runWrites_of_not_covers fun x hx hcovx => ?_
  obtain ⟨j, hj, rfl⟩ := List.mem_iff_getElem.mp hx
  rw [List.length_take] at hj
  rw [List.getElem_take] at hcovx
  exact List.pairwise_iff_getElem.mp h j i (by omega) hi (by omega) a hcovx hcov

/-- Writes to the locations of earlier writes leave nothing of them. -/
theorem runWrites_runWrites_of_shapes {vs : List Write} (h : shapes vs = shapes ws) :
    runWrites vs (runWrites ws m) = runWrites vs m := by
  funext a
  rcases exists_lastWriter vs a with hnone | ⟨i, hlast⟩
  · have hnone' : ∀ x ∈ ws, ¬ x.Covers a := by
      intro x hx hcov
      obtain ⟨i, hi, rfl⟩ := List.mem_iff_getElem.mp hx
      have hi' : i < vs.length := by rwa [length_eq_of_shapes h]
      exact hnone _ (List.getElem_mem hi') ((covers_of_shapes h hi hi').mpr hcov)
    rw [runWrites_of_not_covers hnone, runWrites_of_not_covers hnone', runWrites_of_not_covers hnone]
  · rw [hlast.runWrites hlast.1, hlast.runWrites hlast.1]

end Memory
