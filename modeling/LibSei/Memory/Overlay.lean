-- SUMMARY: Words laid over byte memory: what is seen through them, stores into them, and writing them to the memory below.
import LibSei.Memory.Writes

/-!
# Words over memory

A buffer of words by key can stand between a program and its memory: where there is a word it
is seen, elsewhere the memory below. A store that stays inside a word changes the word only, and
writing all words to memory makes memory what was seen.
-/

namespace Memory

variable {W : Nat} [NeZero W] {look look' : Nat → Option (Fin W → UInt8)} {m m' : Mem}
  {w : Fin W → UInt8} {k b : Nat}

/-- Memory seen through words. Word `k` lies over the bytes `b` with `b / W = k`. -/
def overlay (look : Nat → Option (Fin W → UInt8)) (m : Mem) : Mem :=
  fun b => ((look (b / W)).map fun w => w (Fin.ofNat W b)).getD (m b)

theorem overlay_of_some (h : look (b / W) = some w) : overlay look m b = w (Fin.ofNat W b) := by
  rw [overlay, h]
  rfl

theorem overlay_of_none (h : look (b / W) = none) : overlay look m b = m b := by
  rw [overlay, h]
  rfl

theorem overlay_empty (h : ∀ k, look k = none) : overlay look m = m := by
  funext b
  exact overlay_of_none (h _)

/-- What lies under a word is not seen. -/
theorem overlay_congr (h : ∀ b, look (b / W) = none → m b = m' b) :
    overlay look m = overlay look m' := by
  funext b
  cases hw : look (b / W) with
  | none => rw [overlay_of_none hw, overlay_of_none hw, h b hw]
  | some w => rw [overlay_of_some hw, overlay_of_some hw]

/-- The word of memory with key `k`. -/
def wordAt (m : Mem) (k : Nat) : Fin W → UInt8 := fun j => m (k * W + j)

theorem wordAt_ofNat (m : Mem) (b : Nat) : (wordAt m (b / W) : Fin W → UInt8) (Fin.ofNat W b) = m b := by
  show m (b / W * W + b % W) = m b
  rw [Nat.div_add_mod']

/-- The byte of word `k` at place `j`. -/
theorem key_mul_add_div (k : Nat) (j : Fin W) : (k * W + j) / W = k := by
  rw [Nat.mul_comm, Nat.mul_add_div (Nat.pos_of_ne_zero (NeZero.ne W)), Nat.div_eq_of_lt j.isLt,
    Nat.add_zero]

theorem key_mul_add_ofNat (k : Nat) (j : Fin W) : Fin.ofNat W (k * W + j) = j := by
  apply Fin.ext
  show (k * W + j) % W = j
  rw [Nat.add_comm, Nat.add_mul_mod_self_right, Nat.mod_eq_of_lt j.isLt]

/-- A word is determined by what is seen. -/
theorem word_eq_of_overlay (h : look k = some w) (j : Fin W) : w j = overlay look m (k * W + j) := by
  rw [overlay_of_some (w := w) (by rw [key_mul_add_div, h]), key_mul_add_ofNat]

/-- Laying the word that is seen over memory changes nothing. -/
theorem overlay_lay (hk : look' k = some (wordAt m k)) (hnone : look k = none)
    (hother : ∀ k', k' ≠ k → look' k' = look k') : overlay look' m = overlay look m := by
  funext b
  by_cases hb : b / W = k
  · subst hb
    rw [overlay_of_some hk, overlay_of_none hnone, wordAt_ofNat]
  · rw [overlay, hother _ hb, overlay]

/-- Storing into a word is storing into what is seen. -/
theorem overlay_store {a n v : Nat} {w' : Fin W → UInt8} (hword : ∀ b, a ≤ b ∧ b < a + n → b / W = k)
    (hw : look k = some w) (hw' : look' k = some w')
    (hbytes : ∀ j : Fin W, w' j =
      if a ≤ k * W + j ∧ k * W + j < a + n then leByte v (k * W + j - a) else w j)
    (hother : ∀ k', k' ≠ k → look' k' = look k') :
    overlay look' m = store (overlay look m) a n v := by
  funext b
  by_cases hb : b / W = k
  · subst hb
    have haddr : b / W * W + (Fin.ofNat W b).val = b := Nat.div_add_mod' b W
    rw [overlay_of_some hw', hbytes, haddr, store, overlay_of_some hw]
  · rw [overlay, hother _ hb, store_outside fun hin => hb (hword b hin), overlay]

/-- An aligned access of a width that divides the words stays inside one of them. -/
theorem aligned_div {a n i : Nat} (hn : n ∣ W) (ha : a % n = 0) (hi : i < n) :
    (a + i) / W = a / W := by
  obtain ⟨r, rfl⟩ := hn
  obtain ⟨q, rfl⟩ := Nat.dvd_of_mod_eq_zero ha
  rw [← Nat.div_div_eq_div_mul, ← Nat.div_div_eq_div_mul, Nat.mul_add_div (by omega),
    Nat.div_eq_of_lt hi, Nat.add_zero, Nat.mul_div_cancel_left _ (by omega)]

/-! ## Entries by key -/

section Entries

variable {ε V : Type} (key : ε → Nat) (val : ε → V) {l : List ε} {e : ε} {k : Nat}

/-- The value of the first entry with a key. -/
def valueOf (l : List ε) (k : Nat) : Option V := (l.find? fun e => key e == k).map val

variable {key val}

theorem valueOf_cons (e : ε) (l : List ε) (k : Nat) :
    valueOf key val (e :: l) k = if key e = k then some (val e) else valueOf key val l k := by
  by_cases h : key e = k
  · rw [valueOf, List.find?_cons_of_pos (by simpa using h), if_pos h]
    rfl
  · rw [valueOf, List.find?_cons_of_neg (by simpa using h), if_neg h]
    rfl

theorem valueOf_eq_none : valueOf key val l k = none ↔ k ∉ l.map key := by
  simp [valueOf]

theorem valueOf_map {V' : Type} (g : V → V') (l : List ε) (k : Nat) :
    valueOf key (fun e => g (val e)) l k = (valueOf key val l k).map g := by
  rw [valueOf, valueOf, Option.map_map]
  rfl

theorem valueOf_of_mem (hl : (l.map key).Nodup) (he : e ∈ l) :
    valueOf key val l (key e) = some (val e) := by
  induction l with
  | nil => cases he
  | cons x l ih =>
    rw [List.map_cons, List.nodup_cons] at hl
    rw [valueOf_cons]
    rcases List.mem_cons.mp he with rfl | he
    · rw [if_pos rfl]
    · have hne : key x ≠ key e := fun h => hl.1 (h ▸ List.mem_map_of_mem he)
      rw [if_neg hne, ih hl.2 he]

theorem valueOf_append_singleton (hk : valueOf key val l (key e) = none) (k : Nat) :
    valueOf key val (l ++ [e]) k = if k = key e then some (val e) else valueOf key val l k := by
  induction l with
  | nil =>
    rw [List.nil_append, valueOf_cons]
    by_cases h : key e = k
    · rw [if_pos h, if_pos h.symm]
    · rw [if_neg h, if_neg (Ne.symm h)]
  | cons x l ih =>
    rw [valueOf_cons] at hk
    split at hk
    · cases hk
    · next hx =>
      rw [List.cons_append, valueOf_cons, ih hk, valueOf_cons]
      by_cases hxk : key x = k
      · rw [if_pos hxk, if_pos hxk, if_neg fun h => hx (hxk.trans h)]
      · rw [if_neg hxk, if_neg hxk]

end Entries

/-- A word written to memory. -/
def putWord (k : Nat) (w : Fin W → UInt8) (m : Mem) : Mem :=
  fun b => if b / W = k then w (Fin.ofNat W b) else m b

/-- A word that is seen before others is one written to the memory below them. -/
theorem overlay_cons {ε : Type} {key : ε → Nat} {val : ε → Fin W → UInt8} {l : List ε} {e : ε}
    (he : key e ∉ l.map key) (m : Mem) :
    overlay (valueOf key val (e :: l)) m =
      overlay (valueOf key val l) (putWord (key e) (val e) m) := by
  funext b
  by_cases hb : key e = b / W
  · have hnone : valueOf key val l (b / W) = none := valueOf_eq_none.mpr (hb ▸ he)
    have hsome : valueOf key val (e :: l) (b / W) = some (val e) := by
      rw [valueOf_cons, if_pos hb]
    rw [overlay_of_none hnone, overlay_of_some hsome, putWord, if_pos hb.symm]
  · have hsame : valueOf key val (e :: l) (b / W) = valueOf key val l (b / W) := by
      rw [valueOf_cons, if_neg hb]
    rw [overlay, overlay, hsame, putWord, if_neg (Ne.symm hb)]

/-- Writing words with distinct keys to memory makes memory what is seen through them. -/
theorem foldl_putWord {ε : Type} {key : ε → Nat} {val : ε → Fin W → UInt8} {l : List ε}
    (hl : (l.map key).Nodup) :
    l.foldl (fun m e => putWord (key e) (val e) m) m = overlay (valueOf key val l) m := by
  induction l generalizing m with
  | nil => exact (overlay_empty fun _ => rfl).symm
  | cons e l ih =>
    rw [List.map_cons, List.nodup_cons] at hl
    rw [List.foldl_cons, ih hl.2, overlay_cons hl.1]

end Memory
