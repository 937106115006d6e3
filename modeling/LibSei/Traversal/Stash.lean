-- SUMMARY: The table of contexts `stash`, and the objects that `sei_shift` and `__sei_shift` keep in it.
import LibSei.Machine.Exec

/-!
# The stash

A stash is a growing array of pointers. A handle is an index into it. The library keeps two of
them for a thread, one of output buffers and one of barriers, and both are used in the same
way: a pointer outside of the stash names the object in use, a new handle is given to that object
or to a new one, and shifting to a handle makes the pointer that of the stash.
-/

namespace LibSei

open Control

/-- `struct stash`. `array` gives the contents of the array and of the memory behind it, which a
later `realloc` may hand out unchanged. -/
@[ext] structure Stash where
  array : Nat → Nat
  c : Nat
  maxItems : Nat
  maxItems_pos : 0 < maxItems
  c_le : c ≤ maxItems

namespace Stash

/-- `stash_init`. -/
def init : Stash := ⟨fun _ => 0, 0, 128, by decide, by decide⟩

/-- `stash_extend`, for a `realloc` that does not run out of memory. -/
def extend (s : Stash) : Stash :=
  { s with
    maxItems := s.maxItems * 2
    maxItems_pos := Nat.mul_pos s.maxItems_pos (by decide)
    c_le := Nat.le_trans s.c_le (Nat.le_mul_of_pos_right _ (by decide)) }

/-- The check before a store in `stash_add`. -/
def room (s : Stash) : Stash := if s.c = s.maxItems then s.extend else s

theorem c_lt_room (s : Stash) : s.c < s.room.maxItems := by
  have hpos := s.maxItems_pos
  have hle := s.c_le
  unfold room
  split
  · show s.c < s.maxItems * 2
    omega
  · omega

/-- `stash_add`. -/
def add (s : Stash) (item : Nat) : Nat × Stash :=
  (s.c,
    { array := Function.update s.array s.c item
      c := s.c + 1
      maxItems := s.room.maxItems
      maxItems_pos := s.room.maxItems_pos
      c_le := s.c_lt_room })

/-- `stash_get`. -/
def get (b : Build) (s : Stash) (handle : Int) : Exec Nat := do
  b.assert (handle < s.c ∧ 0 ≤ handle) "handle < stash->c && handle >= 0"
  inBounds (0 ≤ handle ∧ handle < s.maxItems) "stash->array"
  return s.array handle.toNat

theorem get_of_lt {b : Build} {s : Stash} {h : Nat} (hlt : h < s.c) : s.get b h = .ok (s.array h) := by
  have hle := s.c_le
  rw [get, Build.assert_of ⟨by omega, by omega⟩, ok_bind, inBounds_of ⟨by omega, by omega⟩, ok_bind]
  rfl

end Stash

/-! ## Objects behind a stash -/

/-- Objects of one kind at their addresses, 0 being the null pointer; the address of the next one;
the pointer to the one in use; and the stash. -/
structure Shelf (α : Type) where
  objects : Nat → α
  next : Nat
  current : Nat
  stash : Stash

namespace Shelf

variable {α : Type}

/-- One object, in use, that has no handle. -/
def init (x : α) : Shelf α := ⟨fun _ => x, 2, 1, Stash.init⟩

/-- What is done through the pointer to the object in use. -/
def modify (f : α → α) (s : Shelf α) : Shelf α :=
  { s with objects := Function.update s.objects s.current (f (s.objects s.current)) }

/-- A new object, made from the one in use, takes its place. -/
def alloc (make : α → α) (s : Shelf α) : Shelf α :=
  { s with
    objects := Function.update s.objects s.next (make (s.objects s.current))
    next := s.next + 1
    current := s.next }

/-- A shift. The handle -1 asks for a new context; the first one is that of the object in use. -/
def shift (b : Build) (make : α → α) (handle : Int) (s : Shelf α) : Exec (Int × Shelf α) :=
  if handle = -1 then
    let s := if s.stash.c ≠ 0 then s.alloc make else s
    let (h, stash) := s.stash.add s.current
    return (h, { s with stash := stash })
  else do
    let p ← s.stash.get b handle
    return (handle, { s with current := p })

/-- The pointers that are freed in the end: those of the stash, or the one in use if there are
none. -/
def fini (b : Build) (s : Shelf α) : Exec (List Nat) :=
  if s.stash.c ≠ 0 then (List.range s.stash.c).mapM fun i : Nat => s.stash.get b i
  else return [s.current]

/-- The shelf holds the objects `xs`, of which that at index `cur` is in use, and once there are
handles all of them have one. -/
structure Holds (s : Shelf α) (xs : List α) (cur : Nat) (named : Bool) : Prop where
  next : s.next = xs.length + 1
  current : s.current = cur + 1
  current_lt : cur < xs.length
  objects : ∀ i (hi : i < xs.length), s.objects (i + 1) = xs[i]
  unnamed : named = false → s.stash.c = 0 ∧ xs.length = 1
  named : named = true → s.stash.c = xs.length ∧ ∀ i < xs.length, s.stash.array i = i + 1

theorem holds_init (x : α) : (init x).Holds [x] 0 false where
  next := rfl
  current := rfl
  current_lt := Nat.zero_lt_one
  objects i hi := by
    obtain rfl : i = 0 := Nat.lt_one_iff.mp hi
    rfl
  unnamed _ := ⟨rfl, rfl⟩
  named h := by cases h

section Holds

variable {b : Build} {make : α → α} {s : Shelf α} {xs : List α} {cur : Nat} {named : Bool}

/-- The object in use. -/
theorem Holds.current_object (h : s.Holds xs cur named) :
    s.objects s.current = xs.get ⟨cur, h.current_lt⟩ := by
  rw [h.current]
  exact h.objects cur h.current_lt

theorem Holds.modify (h : s.Holds xs cur named) (f : α → α) :
    (s.modify f).Holds (xs.modify cur f) cur named where
  next := by rw [List.length_modify]; exact h.next
  current := h.current
  current_lt := by rw [List.length_modify]; exact h.current_lt
  objects i hi := by
    rw [List.length_modify] at hi
    rw [List.getElem_modify]
    show Function.update s.objects s.current _ (i + 1) = _
    split
    · next hcur =>
      subst hcur
      rw [h.current, Function.update_self, h.objects _ hi]
    · next hcur => rw [Function.update_of_ne (by rw [h.current]; omega), h.objects _ hi]
  unnamed hn := by rw [List.length_modify]; exact h.unnamed hn
  named hn := by rw [List.length_modify]; exact h.named hn

/-- The first handle is that of the object in use. -/
theorem Holds.shift_first (h : s.Holds xs cur false) :
    ∃ s', s.shift b make (-1) = .ok (0, s') ∧ s'.Holds xs cur true := by
  obtain ⟨hc, hone⟩ := h.unnamed rfl
  have hcur := h.current_lt
  have hobj : s.current = 1 := by rw [h.current]; omega
  have hrun : s.shift b make (-1) =
      .ok ((s.stash.c : Int), { s with stash := (s.stash.add s.current).2 }) := by
    rw [shift, if_pos rfl, if_neg (not_not.mpr hc)]
    rfl
  rw [hrun, hc]
  refine ⟨_, rfl, ?_⟩
  exact {
    next := h.next
    current := h.current
    current_lt := hcur
    objects := h.objects
    unnamed := fun hn => by cases hn
    named := fun _ => by
      refine ⟨by rw [hone, ← Nat.zero_add 1, ← hc]; rfl, fun i hi => ?_⟩
      obtain rfl : i = 0 := by omega
      show Function.update s.stash.array s.stash.c s.current 0 = 1
      rw [hc, Function.update_self, hobj] }

/-- Every later one is that of a new object. -/
theorem Holds.shift_new (h : s.Holds xs cur true) {n : Nat} (hn : xs.length = n) {x : α}
    (hx : xs.get ⟨cur, h.current_lt⟩ = x) :
    ∃ s', s.shift b make (-1) = .ok ((n : Int), s') ∧ s'.Holds (xs ++ [make x]) n true := by
  subst hn hx
  obtain ⟨hc, harray⟩ := h.named rfl
  have hcur := h.current_lt
  have hsome : s.stash.c ≠ 0 := by omega
  have hrun : s.shift b make (-1) = .ok ((s.stash.c : Int),
      { s.alloc make with stash := (s.stash.add s.next).2 }) := by
    rw [shift, if_pos rfl, if_pos hsome]
    rfl
  rw [hrun, hc]
  refine ⟨_, rfl, ?_⟩
  exact {
    next := by
      rw [List.length_append, List.length_singleton]
      exact congrArg (· + 1) h.next
    current := h.next
    current_lt := by rw [List.length_append, List.length_singleton]; omega
    objects := fun i hi => by
      rw [List.length_append, List.length_singleton] at hi
      show Function.update s.objects s.next (make (s.objects s.current)) (i + 1) = _
      rw [h.next, h.current_object]
      rcases Nat.lt_or_eq_of_le (Nat.le_of_lt_succ hi) with hlt | rfl
      · rw [Function.update_of_ne (by omega), List.getElem_append_left hlt, h.objects i hlt]
      · rw [Function.update_self, List.getElem_concat_length rfl]
    unnamed := fun hn => by cases hn
    named := fun _ => by
      rw [List.length_append, List.length_singleton]
      refine ⟨congrArg (· + 1) hc, fun i hi => ?_⟩
      show Function.update s.stash.array s.stash.c s.next i = i + 1
      rw [hc, h.next]
      rcases Nat.lt_or_eq_of_le (Nat.le_of_lt_succ hi) with hlt | rfl
      · rw [Function.update_of_ne (by omega), harray i hlt]
      · rw [Function.update_self] }

/-- A shift to a handle. -/
theorem Holds.shift_to (h : s.Holds xs cur true) {j : Nat} (hj : j < xs.length) :
    ∃ s', s.shift b make j = .ok ((j : Int), s') ∧ s'.Holds xs j true := by
  obtain ⟨hc, harray⟩ := h.named rfl
  rw [shift, if_neg (by omega), Stash.get_of_lt (by omega), ok_bind]
  refine ⟨_, rfl, ?_⟩
  exact {
    next := h.next
    current := harray j hj
    current_lt := hj
    objects := h.objects
    unnamed := fun hn => by cases hn
    named := h.named }

/-- With assertions no other handle is accepted. -/
theorem Holds.shift_invalid (h : s.Holds xs cur named) (hb : b.ndebug = false) {j : Int} (hneg : j ≠ -1)
    (hj : ¬ (named = true ∧ 0 ≤ j ∧ j < xs.length)) (r : Int × Shelf α) :
    s.shift b make j ≠ .ok r := by
  have hc : (s.stash.c : Int) ≤ j ∨ j < 0 := by
    cases named with
    | false =>
      rw [(h.unnamed rfl).1]
      omega
    | true =>
      rw [(h.named rfl).1]
      simp only [true_and] at hj
      omega
  rw [shift, if_neg hneg]
  intro hrun
  simp only [bind_eq_ok, Stash.get, Build.assert_eq_ok, hb, Bool.false_eq_true, false_or] at hrun
  obtain ⟨_, ⟨_, hvalid, _⟩, _⟩ := hrun
  omega

theorem mapM_ok {f : Nat → Exec Nat} {g : Nat → Nat} {l : List Nat} (h : ∀ i ∈ l, f i = .ok (g i)) :
    l.mapM f = .ok (l.map g) := by
  induction l with
  | nil => rfl
  | cons i l ih =>
    rw [List.mapM_cons, h i List.mem_cons_self, ok_bind, ih fun j hj => h j (List.mem_cons_of_mem i hj)]
    rfl

/-- In the end every object is freed, and once. -/
theorem Holds.fini (h : s.Holds xs cur named) : s.fini b = .ok (List.range' 1 xs.length) := by
  have hcur := h.current_lt
  cases named with
  | false =>
    obtain ⟨hc, hone⟩ := h.unnamed rfl
    rw [Shelf.fini, if_neg (not_not.mpr hc), hone, h.current]
    obtain rfl : cur = 0 := by omega
    rfl
  | true =>
    obtain ⟨hc, harray⟩ := h.named rfl
    rw [Shelf.fini, if_pos (by omega), hc]
    have hget : ∀ i ∈ List.range xs.length, s.stash.get b i = .ok (1 + i) := by
      intro i hi
      have hlt := List.mem_range.mp hi
      rw [Stash.get_of_lt (by omega), harray i hlt, Nat.add_comm]
    rw [mapM_ok hget, List.range'_eq_map_range]

end Holds

end Shelf

end LibSei
