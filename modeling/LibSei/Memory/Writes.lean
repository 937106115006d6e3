-- SUMMARY: Sequences of sized writes on byte memory: the memory they leave and which write decides a byte.
import LibSei.Memory.Bytes

/-!
# Sequences of writes

A program run leaves a list of sized writes, oldest first. What such a list
leaves in one byte is decided by the last write that covers the byte, however
the writes repeat and overlap.
-/

namespace Memory

/-- A write of `size` bytes. The value fits the width, so equal writes have equal
values. -/
structure Write where
  addr : Nat
  size : Nat
  val : Nat
  val_lt : val < 256 ^ size
  deriving DecidableEq

theorem mod_pow_lt (v size : Nat) : v % 256 ^ size < 256 ^ size :=
  Nat.mod_lt _ (Nat.pow_pos (by decide))

namespace Write

/-- The write of the low `size` bytes of a number. -/
def ofNat (addr size v : Nat) : Write := ⟨addr, size, v % 256 ^ size, mod_pow_lt v size⟩

/-- The write touches byte `b`. -/
def Covers (w : Write) (b : Nat) : Prop := w.addr ≤ b ∧ b < w.addr + w.size

instance (w : Write) (b : Nat) : Decidable (w.Covers b) :=
  inferInstanceAs (Decidable (_ ∧ _))

/-- The address is a multiple of the width. -/
def Aligned (w : Write) : Prop := w.addr % w.size = 0

/-- The byte the write puts at a covered address. -/
def byteAt (w : Write) (b : Nat) : UInt8 := leByte w.val (b - w.addr)

def apply (w : Write) (m : Mem) : Mem := store m w.addr w.size w.val

/-- The location of a write, with the value the memory holds there. -/
def held (w : Write) (m : Mem) : Write :=
  ⟨w.addr, w.size, load m w.addr w.size, load_lt m w.addr w.size⟩

/-- The location of a write, without its value. -/
def shape (w : Write) : Nat × Nat := (w.addr, w.size)

theorem apply_of_covers {w : Write} {m : Mem} {b : Nat} (h : w.Covers b) :
    w.apply m b = w.byteAt b := store_inside h

theorem apply_of_not_covers {w : Write} {m : Mem} {b : Nat} (h : ¬ w.Covers b) :
    w.apply m b = m b := store_outside h

/-- Storing a number is applying the write that holds it narrowed to its width. -/
theorem apply_ofNat (addr size v : Nat) (m : Mem) :
    (ofNat addr size v).apply m = store m addr size v := by
  show store m addr size (v % 256 ^ size) = store m addr size v
  funext b
  by_cases hb : addr ≤ b ∧ b < addr + size
  · have hlt : b - addr < size := by omega
    rw [store_inside hb, store_inside hb, ← leByte_leValue (f := leByte v) hlt, leValue_leByte]
  · rw [store_outside hb, store_outside hb]

theorem apply_of_size_zero {w : Write} {m : Mem} (h : w.size = 0) : w.apply m = m := by
  funext b
  exact apply_of_not_covers fun ⟨hle, hlt⟩ => by omega

/-- The value just written is read back whole. -/
@[simp] theorem load_apply (w : Write) (m : Mem) : load (w.apply m) w.addr w.size = w.val := by
  rw [apply, load_store_same, Nat.mod_eq_of_lt w.val_lt]

/-- A memory holds the write's value exactly when it agrees with it bytewise. -/
theorem load_eq_val_iff {w : Write} {m : Mem} :
    load m w.addr w.size = w.val ↔ ∀ b, w.Covers b → m b = w.byteAt b :=
  Memory.load_eq_val_iff w.val_lt

theorem byteAt_held {w : Write} {m : Mem} {b : Nat} (h : w.Covers b) :
    (w.held m).byteAt b = m b := leByte_load h

end Write

/-! ## Running a list of writes -/

/-- The memory a list of writes leaves, oldest write first. -/
def runWrites (ws : List Write) (m : Mem) : Mem := ws.foldl (fun m w => w.apply m) m

@[simp] theorem runWrites_nil (m : Mem) : runWrites [] m = m := rfl

@[simp] theorem runWrites_cons (w : Write) (ws : List Write) (m : Mem) :
    runWrites (w :: ws) m = runWrites ws (w.apply m) := rfl

theorem runWrites_append (ws vs : List Write) (m : Mem) :
    runWrites (ws ++ vs) m = runWrites vs (runWrites ws m) := by
  simp [runWrites]

/-- The memory just before write `i`. -/
def memBefore (ws : List Write) (m : Mem) (i : Nat) : Mem := runWrites (ws.take i) m

@[simp] theorem memBefore_zero (ws : List Write) (m : Mem) : memBefore ws m 0 = m := by
  simp [memBefore]

@[simp] theorem memBefore_length (ws : List Write) (m : Mem) :
    memBefore ws m ws.length = runWrites ws m := by
  simp [memBefore]

theorem memBefore_succ {ws : List Write} {m : Mem} {i : Nat} (hi : i < ws.length) :
    memBefore ws m (i + 1) = ws[i].apply (memBefore ws m i) := by
  rw [memBefore, List.take_succ_eq_append_getElem hi, runWrites_append]
  rfl

/-- What each write of a run overwrote. -/
def olds : List Write → Mem → List Write
  | [], _ => []
  | w :: ws, m => w.held m :: olds ws (w.apply m)

@[simp] theorem length_olds (ws : List Write) (m : Mem) : (olds ws m).length = ws.length := by
  induction ws generalizing m with
  | nil => rfl
  | cons w ws ih => simp [olds, ih]

theorem olds_append_singleton (ws : List Write) (w : Write) (m : Mem) :
    olds (ws ++ [w]) m = olds ws m ++ [w.held (runWrites ws m)] := by
  induction ws generalizing m with
  | nil => rfl
  | cons v ws ih => simp [olds, ih]

theorem getElem_olds {ws : List Write} {m : Mem} {i : Nat} (hi : i < ws.length)
    (hi' : i < (olds ws m).length) : (olds ws m)[i] = ws[i].held (memBefore ws m i) := by
  induction ws generalizing m i with
  | nil => simp at hi
  | cons w ws ih =>
    cases i with
    | zero => rfl
    | succ i => exact ih (by simpa using hi) (by simpa [olds] using hi')

/-- The first write to cover a byte overwrites what the byte held at the start. -/
theorem exists_olds_byteAt {ws : List Write} {m : Mem} {b : Nat} (h : ∃ w ∈ ws, w.Covers b) :
    ∃ v ∈ olds ws m, v.Covers b ∧ v.byteAt b = m b := by
  induction ws generalizing m with
  | nil => simp at h
  | cons w ws ih =>
    by_cases hw : w.Covers b
    · exact ⟨w.held m, List.mem_cons_self, hw, Write.byteAt_held hw⟩
    · obtain ⟨x, hx, hxb⟩ := h
      rcases List.mem_cons.mp hx with rfl | hx
      · exact absurd hxb hw
      · obtain ⟨v, hv, hcov, hbyte⟩ := ih (m := w.apply m) ⟨x, hx, hxb⟩
        exact ⟨v, List.mem_cons_of_mem _ hv, hcov, hbyte.trans (Write.apply_of_not_covers hw)⟩

/-- A byte that no write covers keeps its value. -/
theorem runWrites_of_not_covers {ws : List Write} {m : Mem} {b : Nat}
    (h : ∀ w ∈ ws, ¬ w.Covers b) : runWrites ws m b = m b := by
  induction ws generalizing m with
  | nil => rfl
  | cons w ws ih =>
    rw [runWrites_cons, ih (fun v hv => h v (List.mem_cons_of_mem _ hv)),
      Write.apply_of_not_covers (h w List.mem_cons_self)]

/-! ## Memory that changes elsewhere -/

/-- The bytes that the writes cover, from `m`, and all others from `m'`. -/
def patch (ws : List Write) (m m' : Mem) : Mem :=
  fun b => if ∃ w ∈ ws, w.Covers b then m b else m' b

section Patch

variable {ws : List Write} {m m' : Mem} {b : Nat}

theorem patch_of_covers (h : ∃ w ∈ ws, w.Covers b) : patch ws m m' b = m b := if_pos h

theorem patch_of_not_covers (h : ¬ ∃ w ∈ ws, w.Covers b) : patch ws m m' b = m' b := if_neg h

/-- What writes leave in a byte depends on that byte alone. -/
theorem runWrites_congr (h : m b = m' b) : runWrites ws m b = runWrites ws m' b := by
  induction ws generalizing m m' with
  | nil => exact h
  | cons w ws ih =>
    rw [runWrites_cons, runWrites_cons]
    refine ih ?_
    by_cases hw : w.Covers b
    · rw [Write.apply_of_covers hw, Write.apply_of_covers hw]
    · rw [Write.apply_of_not_covers hw, Write.apply_of_not_covers hw, h]

/-- What writes overwrite depends on the bytes they cover. -/
theorem olds_congr (h : ∀ w ∈ ws, ∀ b, w.Covers b → m b = m' b) : olds ws m = olds ws m' := by
  induction ws generalizing m m' with
  | nil => rfl
  | cons w ws ih =>
    have hheld : w.held m = w.held m' := by
      have hload : load m w.addr w.size = load m' w.addr w.size :=
        load_eq_iff.mpr fun b hb => h w List.mem_cons_self b hb
      simp only [Write.held, hload]
    rw [olds, olds, hheld, ih fun v hv b hb => ?_]
    have happly : runWrites [w] m b = runWrites [w] m' b :=
      runWrites_congr (h v (List.mem_cons_of_mem _ hv) b hb)
    exact happly

/-- Writes on `m` lead to `m'`, up to bytes they do not cover, so the same writes on the
patched memory lead to `m'`. -/
theorem runWrites_patch (h : ∀ w ∈ ws, ∀ b, w.Covers b → m' b = runWrites ws m b) :
    runWrites ws (patch ws m m') = m' := by
  funext b
  by_cases hb : ∃ w ∈ ws, w.Covers b
  · obtain ⟨w, hw, hcov⟩ := hb
    rw [runWrites_congr (patch_of_covers ⟨w, hw, hcov⟩), h w hw b hcov]
  · rw [runWrites_congr (patch_of_not_covers hb)]
    exact runWrites_of_not_covers fun w hw hcov => hb ⟨w, hw, hcov⟩

theorem olds_patch : olds ws (patch ws m m') = olds ws m :=
  olds_congr fun w hw _ hb => patch_of_covers ⟨w, hw, hb⟩

end Patch

/-! ## The write that decides a byte -/

/-- Write `i` is the last one of the list to cover byte `b`. -/
def LastWriter (ws : List Write) (b i : Nat) : Prop :=
  ∃ hi : i < ws.length, ws[i].Covers b ∧
    ∀ j (hj : j < ws.length), i < j → ¬ ws[j].Covers b

theorem LastWriter.runWrites {ws : List Write} {m : Mem} {b i : Nat}
    (h : LastWriter ws b i) (hi : i < ws.length) :
    Memory.runWrites ws m b = ws[i].byteAt b := by
  obtain ⟨_, hcov, hlast⟩ := h
  have hsplit : ws = ws.take i ++ ws[i] :: ws.drop (i + 1) := by
    rw [← List.drop_eq_getElem_cons hi, List.take_append_drop]
  conv_lhs => rw [hsplit]
  rw [runWrites_append, runWrites_cons, runWrites_of_not_covers, Write.apply_of_covers hcov]
  intro w hw
  obtain ⟨j, hj, rfl⟩ := List.mem_iff_getElem.mp hw
  rw [List.getElem_drop]
  exact hlast _ _ (by omega)

theorem LastWriter.unique {ws : List Write} {b i j : Nat} (hi : LastWriter ws b i)
    (hj : LastWriter ws b j) : j = i := by
  rcases Nat.lt_trichotomy i j with hlt | heq | hgt
  · exact absurd hj.2.1 (hi.2.2 j hj.1 hlt)
  · exact heq.symm
  · exact absurd hi.2.1 (hj.2.2 i hi.1 hgt)

/-- Either no write covers the byte, or one of them is the last to do so. -/
theorem exists_lastWriter (ws : List Write) (b : Nat) :
    (∀ w ∈ ws, ¬ w.Covers b) ∨ ∃ i, LastWriter ws b i := by
  induction ws with
  | nil => exact .inl (fun _ h => by cases h)
  | cons w ws ih =>
    rcases ih with hnone | ⟨i, hi, hcov, hlast⟩
    · by_cases hw : w.Covers b
      · refine .inr ⟨0, by simp, hw, fun j hj h0 => ?_⟩
        obtain ⟨j, rfl⟩ := Nat.exists_eq_succ_of_ne_zero (by omega : j ≠ 0)
        exact hnone _ (List.getElem_mem _)
      · exact .inl (by simpa [hw] using hnone)
    · refine .inr ⟨i + 1, by simpa using hi, hcov, fun j hj hij => ?_⟩
      obtain ⟨j, rfl⟩ := Nat.exists_eq_succ_of_ne_zero (by omega : j ≠ 0)
      exact hlast j (by simpa using hj) (by omega)

theorem exists_lastWriter_of_covers {ws : List Write} {w : Write} {b : Nat}
    (hw : w ∈ ws) (hcov : w.Covers b) : ∃ i, LastWriter ws b i :=
  (exists_lastWriter ws b).resolve_left (fun h => h w hw hcov)

/-! ## Lists that write the same locations -/

/-- The locations of a list of writes, in order. -/
def shapes (ws : List Write) : List (Nat × Nat) := ws.map Write.shape

@[simp] theorem length_shapes (ws : List Write) : (shapes ws).length = ws.length := by
  simp [shapes]

theorem shapes_eq_iff {ws vs : List Write} : shapes vs = shapes ws ↔
    vs.length = ws.length ∧ ∀ i (hi : i < ws.length) (hi' : i < vs.length),
      vs[i].addr = ws[i].addr ∧ vs[i].size = ws[i].size := by
  constructor
  · intro h
    refine ⟨by simpa using congrArg List.length h, fun i hi hi' => ?_⟩
    have hget : (shapes vs)[i]? = (shapes ws)[i]? := by rw [h]
    simpa [shapes, Write.shape, hi, hi'] using hget
  · rintro ⟨hlen, h⟩
    apply List.ext_getElem (by simpa using hlen)
    intro i hi' hi
    simp only [length_shapes] at hi hi'
    obtain ⟨haddr, hsize⟩ := h i hi hi'
    simp [shapes, Write.shape, haddr, hsize]

theorem length_eq_of_shapes {ws vs : List Write} (h : shapes vs = shapes ws) :
    vs.length = ws.length := (shapes_eq_iff.mp h).1

theorem covers_of_shapes {ws vs : List Write} (h : shapes vs = shapes ws) {i b : Nat}
    (hi : i < ws.length) (hi' : i < vs.length) : vs[i].Covers b ↔ ws[i].Covers b := by
  obtain ⟨haddr, hsize⟩ := (shapes_eq_iff.mp h).2 i hi hi'
  rw [Write.Covers, Write.Covers, haddr, hsize]

/-- Which write decides a byte depends on the locations only. -/
theorem LastWriter.of_shapes {ws vs : List Write} (h : shapes vs = shapes ws) {b i : Nat}
    (hw : LastWriter ws b i) : LastWriter vs b i := by
  have hlen := length_eq_of_shapes h
  obtain ⟨hi, hcov, hlast⟩ := hw
  refine ⟨by omega, (covers_of_shapes h hi _).mpr hcov, fun j hj hij hcovj => ?_⟩
  exact hlast j (by omega) hij ((covers_of_shapes h (by omega) hj).mp hcovj)

end Memory
