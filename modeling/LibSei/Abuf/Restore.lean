-- SUMMARY: `abuf_restore` and `abuf_restore_filtered`: replaying a log into memory, oldest entry first.
import LibSei.Abuf.CmpHeap
import LibSei.Abuf.Swap
import LibSei.Control.Loop
import LibSei.Traversal.Alloc

/-!
# Restoring memory from a log

A rollback stores the values of the log of phase 0 back to memory. The entries are
taken oldest first, so where several entries cover a byte the newest of them decides
what the byte holds afterwards. Entries inside the transaction's own blocks are
skipped, and a word that currently points into such a block is set to null instead
of being restored.
-/

namespace LibSei

open Memory Control

theorem AbufEntry.val_lt {e : AbufEntry} (h : e.Known) : e.val < 256 ^ e.size := by
  obtain ⟨t, ht⟩ := Option.isSome_iff_exists.mp h
  rw [AbufEntry.val_of_ofSize? ht, ← UIntTy.sizeof_of_ofSize? ht]
  exact leValue_lt _ _

/-- The write an entry stands for. An entry of a size that the `switch` does not know stands
for no byte. -/
def AbufEntry.write (e : AbufEntry) : Write :=
  if h : e.Known then ⟨e.addr, e.size, e.val, AbufEntry.val_lt h⟩ else ⟨e.addr, 0, 0, by decide⟩

@[simp] theorem AbufEntry.write_addr (e : AbufEntry) : e.write.addr = e.addr := by
  rw [AbufEntry.write]
  split <;> rfl

theorem AbufEntry.write_size {e : AbufEntry} (h : e.Known) : e.write.size = e.size := by
  rw [AbufEntry.write, dif_pos h]

theorem AbufEntry.write_size_of_not_known {e : AbufEntry} (h : ¬ e.Known) : e.write.size = 0 := by
  rw [AbufEntry.write, dif_neg h]

namespace Abuf

/-- The writes the entries of a log stand for, oldest first. -/
def writes (a : Abuf) : List Write := (List.range' 0 a.pushed).map fun i => (a.buf i).write

/-- `ABUF_RESTORE` under the `switch (e->size)`. -/
def restoreEntry (b : Build) (e : AbufEntry) (text : String) (mem : Mem) : Exec Mem :=
  match UIntTy.ofSize? e.size with
  | some t => return store mem e.addr t.sizeof (e.wvax t)
  | none => do
      b.assert False text
      return mem

/-- `abuf_restore`. -/
def restore (b : Build) (a : Abuf) (mem : Mem) : Exec (Abuf × Mem) := do
  let mem ← forLoop (fun i mem => restoreEntry b (a.buf i) "unknown size in abuf_restore" mem)
    a.pushed 0 mem
  return (a.clean, mem)

/-- The value at the entry's address is a pointer into one of the blocks. -/
def PointsInto (inRange : Nat → Bool) (mem : Mem) (addr size : Nat) : Prop :=
  size = 8 ∧ load mem addr 8 ≠ 0 ∧ inRange (load mem addr 8) = true

instance (inRange : Nat → Bool) (mem : Mem) (addr size : Nat) :
    Decidable (PointsInto inRange mem addr size) := inferInstanceAs (Decidable (_ ∧ _))

/-- One iteration of `abuf_restore_filtered`. -/
def restoreFilteredEntry (b : Build) (inRange : Nat → Bool) (e : AbufEntry) (mem : Mem) :
    Exec Mem :=
  if inRange e.addr = true then return mem
  else if PointsInto inRange mem e.addr e.size then return store mem e.addr 8 0
  else restoreEntry b e "unknown size in abuf_restore_filtered" mem

/-- `abuf_restore_filtered`. -/
def restoreFiltered (b : Build) (a : Abuf) (talloc : Talloc) (mem : Mem) : Exec (Abuf × Mem) := do
  let mem ← forLoop (fun i mem => restoreFilteredEntry b talloc.addrInRange (a.buf i) mem)
    a.pushed 0 mem
  return (a.clean, mem)

/-! ## A restore as a list of writes -/

section Plain

variable {b : Build} {e : AbufEntry} {a : Abuf} {ws : List Write} {m : Mem}

theorem restoreEntry_eq_ok {text : String} {m' : Mem} :
    restoreEntry b e text m = .ok m' ↔ (b.ndebug = true ∨ e.Known) ∧ m' = e.write.apply m := by
  by_cases hknown : e.Known
  · obtain ⟨t, ht⟩ := Option.isSome_iff_exists.mp hknown
    have hwrite : e.write.apply m = store m e.addr t.sizeof (e.wvax t) := by
      rw [AbufEntry.write, dif_pos hknown, ← AbufEntry.val_of_ofSize? ht, UIntTy.sizeof_of_ofSize? ht]
      rfl
    rw [hwrite, restoreEntry, ht, eq_comm (a := m')]
    simp [hknown]
  · have hnone : UIntTy.ofSize? e.size = none := by simpa [AbufEntry.Known] using hknown
    rw [Write.apply_of_size_zero (AbufEntry.write_size_of_not_known hknown), restoreEntry, hnone,
      eq_comm (a := m')]
    simp only [seq_eq_ok, Build.assert_eq_ok, pure_eq_ok, Except.ok.injEq, hknown]

/-- `abuf_restore` on any log. -/
theorem restore_eq_ok {r : Abuf × Mem} : a.restore b m = .ok r ↔
    (∀ i < a.pushed, b.ndebug = true ∨ (a.buf i).Known) ∧ r = (a.clean, runWrites a.writes m) := by
  rw [restore, runWrites, writes, List.foldl_map]
  exact forLoop_then_eq_ok fun _ _ _ => restoreEntry_eq_ok

theorem Holds.known (h : a.Holds ws) (hsized : Sized ws) {i : Nat} (hi : i < a.pushed) :
    (a.buf i).Known := by
  have hi' : i < ws.length := h.pushed ▸ hi
  rw [AbufEntry.Known, (h.entry i hi').size]
  exact hsized _ (List.getElem_mem hi')

theorem Holds.writes_eq (h : a.Holds ws) (hsized : Sized ws) : a.writes = ws := by
  apply List.ext_getElem
  · simp [writes, h.pushed]
  · intro i hi hi'
    have hknown := h.known hsized (i := i) (by rwa [h.pushed])
    have hentry := h.entry i hi'
    have hwrite : (a.buf i).write = ws[i] := by
      rw [AbufEntry.write, dif_pos hknown]
      cases hw : ws[i]
      rw [hw] at hentry
      simp [hentry.addr, hentry.size, hentry.val]
    simpa [writes] using hwrite

end Plain

/-! ## A filtered restore as a list of writes -/

/-- The write an entry causes: none (of no bytes) inside a block, null over a pointer
into one, and otherwise the recorded value. -/
def filteredWrite (inRange : Nat → Bool) (w : Write) (mem : Mem) : Write :=
  if inRange w.addr = true then ⟨w.addr, 0, 0, by decide⟩
  else if PointsInto inRange mem w.addr w.size then ⟨w.addr, w.size, 0, Nat.pow_pos (by decide)⟩
  else w

/-- The writes a filtered restore of the log `ws` makes on memory `mem`. -/
def filteredWrites (inRange : Nat → Bool) : List Write → Mem → List Write
  | [], _ => []
  | w :: ws, mem =>
      let w' := filteredWrite inRange w mem
      w' :: filteredWrites inRange ws (w'.apply mem)

section Filtered

variable {inRange : Nat → Bool} {ws : List Write} {m : Mem}

@[simp] theorem length_filteredWrites : (filteredWrites inRange ws m).length = ws.length := by
  induction ws generalizing m with
  | nil => rfl
  | cons w ws ih => simp [filteredWrites, ih]

theorem getElem_filteredWrites {i : Nat} (hi : i < ws.length)
    (hi' : i < (filteredWrites inRange ws m).length) :
    (filteredWrites inRange ws m)[i] =
      filteredWrite inRange ws[i] (memBefore (filteredWrites inRange ws m) m i) := by
  induction ws generalizing m i with
  | nil => simp at hi
  | cons w ws ih =>
    cases i with
    | zero => simp [filteredWrites]
    | succ i =>
      have := ih (m := (filteredWrite inRange w m).apply m) (by simpa using hi)
        (by simpa [filteredWrites] using hi')
      simpa [filteredWrites, memBefore] using this

/-- The filtered writes in one pass. -/
theorem runWrites_filteredWrites : runWrites (filteredWrites inRange ws m) m =
    ws.foldl (fun m w => (filteredWrite inRange w m).apply m) m := by
  induction ws generalizing m with
  | nil => rfl
  | cons w ws ih => exact ih

theorem restoreFilteredEntry_eq_ok {b : Build} {e : AbufEntry} {m' : Mem} :
    restoreFilteredEntry b inRange e m = .ok m' ↔
      (inRange e.addr = true ∨ b.ndebug = true ∨ e.Known) ∧
        m' = (filteredWrite inRange e.write m).apply m := by
  have hpoints : PointsInto inRange m e.addr e.write.size ↔ PointsInto inRange m e.addr e.size := by
    by_cases hknown : e.Known
    · rw [AbufEntry.write_size hknown]
    · have hsize : e.size ≠ 8 := fun h => hknown (by rw [AbufEntry.Known, h]; rfl)
      simp [PointsInto, AbufEntry.write_size_of_not_known hknown, hsize]
  unfold restoreFilteredEntry filteredWrite
  simp only [AbufEntry.write_addr, hpoints]
  split
  · next hin =>
    rw [Write.apply_of_size_zero rfl, eq_comm (a := m')]
    simp [hin]
  · next hout =>
    split
    · next hpoints =>
      have hknown : e.Known := by rw [AbufEntry.Known, hpoints.1]; rfl
      have happly : Write.apply ⟨e.addr, e.write.size, 0, Nat.pow_pos (by decide)⟩ m =
          store m e.addr 8 0 := by
        show store m e.addr e.write.size 0 = _
        rw [AbufEntry.write_size hknown, hpoints.1]
      rw [happly, eq_comm (a := m')]
      simp [hknown]
    · rw [restoreEntry_eq_ok]
      simp only [hout, Bool.false_eq_true, false_or]

/-- `abuf_restore_filtered` on any log. -/
theorem restoreFiltered_eq_ok {b : Build} {a : Abuf} {talloc : Talloc} {r : Abuf × Mem} :
    a.restoreFiltered b talloc m = .ok r ↔
      (∀ i < a.pushed,
        talloc.addrInRange (a.buf i).addr = true ∨ b.ndebug = true ∨ (a.buf i).Known) ∧
      r = (a.clean, runWrites (filteredWrites talloc.addrInRange a.writes m) m) := by
  rw [restoreFiltered, runWrites_filteredWrites, writes, List.foldl_map]
  exact forLoop_then_eq_ok fun _ _ _ => restoreFilteredEntry_eq_ok

/-- What `abuf_restore_filtered` does to memory. -/
theorem restoreFiltered_spec (b : Build) {a : Abuf} {talloc : Talloc}
    (h : a.Holds ws) (hsized : Sized ws) :
    a.restoreFiltered b talloc m =
      .ok (a.clean, runWrites (filteredWrites talloc.addrInRange ws m) m) := by
  rw [restoreFiltered_eq_ok, h.writes_eq hsized]
  exact ⟨fun i hi => .inr (.inr (h.known hsized hi)), rfl⟩

/-! ## Which entry decides a byte -/

/-- When the restore reaches entry `i`, the word there points into a block. -/
def Cleared (inRange : Nat → Bool) (ws : List Write) (m : Mem) (i : Nat) : Prop :=
  ∃ hi : i < ws.length,
    PointsInto inRange (memBefore (filteredWrites inRange ws m) m i) ws[i].addr ws[i].size

/-- Entry `i` is the last one outside the blocks to cover byte `b`. -/
def LastRestored (inRange : Nat → Bool) (ws : List Write) (b i : Nat) : Prop :=
  ∃ hi : i < ws.length, inRange ws[i].addr = false ∧ ws[i].Covers b ∧
    ∀ j (hj : j < ws.length), i < j → inRange ws[j].addr = false → ¬ ws[j].Covers b

theorem filteredWrite_covers {w : Write} {b : Nat} :
    (filteredWrite inRange w m).Covers b ↔ inRange w.addr = false ∧ w.Covers b := by
  unfold filteredWrite
  split
  · next h =>
    simp only [h, Bool.true_eq_false, false_and, iff_false]
    rintro ⟨hle, hlt⟩
    simp only at hle hlt
    omega
  · next h =>
    have h' : inRange w.addr = false := by simpa using h
    split <;> simp [h', Write.Covers]

theorem lastWriter_filteredWrites {b i : Nat} :
    LastWriter (filteredWrites inRange ws m) b i ↔ LastRestored inRange ws b i := by
  constructor
  · rintro ⟨hi', hcov, hlast⟩
    have hi : i < ws.length := by simpa using hi'
    rw [getElem_filteredWrites hi hi', filteredWrite_covers] at hcov
    refine ⟨hi, hcov.1, hcov.2, fun j hj hij hout hcovj => ?_⟩
    have hj' : j < (filteredWrites inRange ws m).length := by simpa using hj
    apply hlast j hj' hij
    rw [getElem_filteredWrites hj hj', filteredWrite_covers]
    exact ⟨hout, hcovj⟩
  · rintro ⟨hi, hout, hcov, hlast⟩
    have hi' : i < (filteredWrites inRange ws m).length := by simpa using hi
    refine ⟨hi', ?_, fun j hj' hij hcovj => ?_⟩
    · rw [getElem_filteredWrites hi hi', filteredWrite_covers]
      exact ⟨hout, hcov⟩
    · have hj : j < ws.length := by simpa using hj'
      rw [getElem_filteredWrites hj hj', filteredWrite_covers] at hcovj
      exact hlast j hj hij hcovj.1 hcovj.2

/-- A byte that some entry outside the blocks covers ends up as the last of them says. -/
theorem LastRestored.runWrites {b i : Nat} (h : LastRestored inRange ws b i) (hi : i < ws.length) :
    (Cleared inRange ws m i → runWrites (filteredWrites inRange ws m) m b = 0) ∧
      (¬ Cleared inRange ws m i →
        runWrites (filteredWrites inRange ws m) m b = ws[i].byteAt b) := by
  have hi' : i < (filteredWrites inRange ws m).length := by simpa using hi
  have hlast : LastWriter (filteredWrites inRange ws m) b i := lastWriter_filteredWrites.mpr h
  have hout : ¬ inRange ws[i].addr = true := by simp [h.2.1]
  rw [hlast.runWrites hi', getElem_filteredWrites hi hi', filteredWrite, if_neg hout]
  constructor
  · rintro ⟨_, hpoints⟩
    rw [if_pos hpoints]
    simp [Write.byteAt, leByte]
  · intro hnot
    rw [if_neg (fun hpoints => hnot ⟨hi, hpoints⟩)]

/-- A byte that no entry outside the blocks covers keeps its value. -/
theorem exists_lastRestored (inRange : Nat → Bool) (ws : List Write) (m : Mem) (b : Nat) :
    runWrites (filteredWrites inRange ws m) m b = m b ∨
      ∃ i, LastRestored inRange ws b i := by
  rcases exists_lastWriter (filteredWrites inRange ws m) b with hnone | ⟨i, hi⟩
  · exact .inl (runWrites_of_not_covers hnone)
  · exact .inr ⟨i, lastWriter_filteredWrites.mp hi⟩

/-- A filtered restore of the log `ws` on memory `m` leaves `v` in byte `b`: the last entry
outside the blocks that covers the byte puts it there, or the byte holds it already. -/
structure RestoresTo (inRange : Nat → Bool) (ws : List Write) (m : Mem) (b : Nat) (v : UInt8) :
    Prop where
  cleared : ∀ i, LastRestored inRange ws b i → Cleared inRange ws m i → v = 0
  stored : ∀ i (hi : i < ws.length), LastRestored inRange ws b i → ¬ Cleared inRange ws m i →
    ws[i].byteAt b = v
  kept : (∀ i, ¬ LastRestored inRange ws b i) → m b = v

theorem runWrites_filteredWrites_eq_iff {b : Nat} {v : UInt8} :
    runWrites (filteredWrites inRange ws m) m b = v ↔ RestoresTo inRange ws m b v := by
  constructor
  · rintro rfl
    refine ⟨fun i hlast hcleared => ?_, fun i hi hlast hnot => ?_, fun hnone => ?_⟩
    · exact (hlast.runWrites hlast.1).1 hcleared
    · exact ((hlast.runWrites hi).2 hnot).symm
    · exact ((exists_lastRestored inRange ws m b).resolve_right fun ⟨i, hi⟩ => hnone i hi).symm
  · intro h
    by_cases hsome : ∃ i, LastRestored inRange ws b i
    · obtain ⟨i, hlast⟩ := hsome
      have hi := hlast.1
      by_cases hcleared : Cleared inRange ws m i
      · rw [(hlast.runWrites hi).1 hcleared, h.cleared i hlast hcleared]
      · rw [(hlast.runWrites hi).2 hcleared, h.stored i hi hlast hcleared]
    · rw [(exists_lastRestored inRange ws m b).resolve_right hsome]
      exact h.kept fun i hi => hsome ⟨i, hi⟩

end Filtered

end Abuf

end LibSei
