-- SUMMARY: Singly linked lists through a map of links: taking the first node off, appending behind the last and what is left alone, for one list and for several.
import Mathlib.Logic.Function.Basic
import Mathlib.Data.List.Nodup

/-!
# Linked lists

Nodes are linked by a map that gives for each node the next one, and `null` at the end.
-/

namespace Memory

variable {α : Type} {null : α} {next next' : α → α} {a x : α} {l l' : List α}

/-- The nodes that are linked from `a` on, up to `null`. -/
def Chain (null : α) (next : α → α) : α → List α → Prop
  | a, [] => a = null
  | a, x :: l => a = x ∧ x ≠ null ∧ Chain null next (next x) l

theorem Chain.congr (h : Chain null next a l) (hnext : ∀ x ∈ l, next' x = next x) :
    Chain null next' a l := by
  induction l generalizing a with
  | nil => exact h
  | cons x l ih =>
    obtain ⟨ha, hx, hl⟩ := h
    refine ⟨ha, hx, ?_⟩
    rw [hnext x List.mem_cons_self]
    exact ih hl fun y hy => hnext y (List.mem_cons_of_mem x hy)

theorem Chain.unique (h : Chain null next a l) (h' : Chain null next a l') : l = l' := by
  induction l generalizing a l' with
  | nil =>
    cases l' with
    | nil => rfl
    | cons y l' => exact absurd (h'.1.symm.trans h) h'.2.1
  | cons x l ih =>
    obtain ⟨rfl, hx, hl⟩ := h
    cases l' with
    | nil => exact absurd h' hx
    | cons y l' =>
      obtain ⟨rfl, -, hl'⟩ := h'
      rw [ih hl hl']

theorem Chain.nil_of_null (h : Chain null next null l) : l = [] := Chain.unique h rfl

theorem Chain.cons_of_ne (h : Chain null next a l) (ha : a ≠ null) :
    ∃ l1, l = a :: l1 ∧ Chain null next (next a) l1 := by
  cases l with
  | nil => exact absurd h ha
  | cons x l1 =>
    obtain ⟨rfl, -, hl⟩ := h
    exact ⟨l1, rfl, hl⟩

/-- From a node on, the rest of the list is linked. -/
theorem Chain.from_mem (h : Chain null next a l) (hx : x ∈ l) :
    ∃ l1 l2, l = l1 ++ x :: l2 ∧ Chain null next (next x) l2 := by
  induction l generalizing a with
  | nil => cases hx
  | cons y l ih =>
    obtain ⟨-, -, hl⟩ := h
    rcases List.mem_cons.mp hx with rfl | hx
    · exact ⟨[], l, rfl, hl⟩
    · obtain ⟨l1, l2, rfl, hl2⟩ := ih hl hx
      exact ⟨y :: l1, l2, rfl, hl2⟩

/-- A list that ends does not come back to a node. -/
theorem Chain.nodup (h : Chain null next a l) : l.Nodup := by
  induction l generalizing a with
  | nil => exact List.nodup_nil
  | cons x l ih =>
    obtain ⟨-, -, hl⟩ := h
    refine List.nodup_cons.mpr ⟨fun hmem => ?_, ih hl⟩
    obtain ⟨l1, l2, hsplit, hl2⟩ := hl.from_mem hmem
    have hlen := congrArg List.length (hsplit.symm.trans (hl.unique hl2))
    rw [List.length_append, List.length_cons] at hlen
    omega

section Last

variable [DecidableEq α]

/-- Go to the last node. -/
def lastLink (null : α) (next : α → α) : Nat → α → Option α
  | 0, _ => none
  | fuel + 1, a => if next a ≠ null then lastLink null next fuel (next a) else some a

/-- With as many steps as there are nodes the last one is reached, and a node can be linked
behind it. -/
theorem Chain.lastLink (h : Chain null next a l) (ha : a ≠ null) {fuel : Nat} (hfuel : l.length ≤ fuel) :
    ∃ last ∈ l, Memory.lastLink null next fuel a = some last ∧
      ∀ y, y ≠ null → next y = null → y ∉ l →
        Chain null (Function.update next last y) a (l ++ [y]) := by
  induction l generalizing a fuel with
  | nil => exact absurd h ha
  | cons x l ih =>
    have hfresh := (List.nodup_cons.mp h.nodup).1
    obtain ⟨rfl, -, hl⟩ := h
    obtain ⟨fuel, rfl⟩ : ∃ n, fuel = n + 1 := ⟨fuel - 1, by simp at hfuel; omega⟩
    by_cases hend : next a = null
    · -- The node is the last one.
      rw [hend] at hl
      cases hl.nil_of_null
      refine ⟨a, List.mem_singleton_self a, by rw [Memory.lastLink, if_neg (not_not.mpr hend)], ?_⟩
      intro y hy hnull hmem
      have hne : y ≠ a := fun h => hmem (List.mem_singleton.mpr h)
      refine ⟨rfl, ha, ?_⟩
      rw [Function.update_self]
      refine ⟨rfl, hy, ?_⟩
      show Function.update next a y y = null
      rw [Function.update_of_ne hne, hnull]
    · obtain ⟨last, hlast, hwalk, happend⟩ := ih hl hend (Nat.le_of_succ_le_succ hfuel)
      refine ⟨last, List.mem_cons_of_mem a hlast, by rw [Memory.lastLink, if_pos hend, hwalk], ?_⟩
      intro y hy hnull hmem
      have hne : a ≠ last := fun h => hfresh (h ▸ hlast)
      refine ⟨rfl, ha, ?_⟩
      rw [Function.update_of_ne hne]
      exact happend y hy hnull fun h => hmem (List.mem_cons_of_mem a h)

end Last

/-! ## Several lists -/

section Several

variable {κ : Type} [DecidableEq κ] {lists : κ → List α} {k c : κ}

/-- One of several lists is changed. The others stay linked if their links are left alone. -/
theorem chain_update {head head' : κ → α} (h : ∀ c, Chain null next (head c) (lists c))
    (hk : Chain null next' (head' k) l) (hheads : ∀ c, c ≠ k → head' c = head c)
    (hlinks : ∀ c, c ≠ k → ∀ x ∈ lists c, next' x = next x) (c : κ) :
    Chain null next' (head' c) (Function.update lists k l c) := by
  by_cases hc : c = k
  · subst hc
    rwa [Function.update_self]
  · rw [Function.update_of_ne hc, hheads c hc]
    exact (h c).congr (hlinks c hc)

/-- The nodes that are left when the first one of a list is taken off. -/
theorem mem_update_tail (hlist : lists k = a :: l) (ha : a ∉ l) :
    x ∈ Function.update lists k l c ↔ x ∈ lists c ∧ ¬ (c = k ∧ x = a) := by
  by_cases hc : c = k
  · subst hc
    rw [Function.update_self, hlist, List.mem_cons]
    constructor
    · exact fun hx => ⟨.inr hx, fun h => ha (h.2 ▸ hx)⟩
    · exact fun ⟨hx, hne⟩ => hx.resolve_left fun heq => hne ⟨rfl, heq⟩
  · rw [Function.update_of_ne hc]
    exact (and_iff_left fun h => hc h.1).symm

/-- The nodes that are there when one is put behind a list. -/
theorem mem_update_append :
    x ∈ Function.update lists k (lists k ++ [a]) c ↔ x ∈ lists c ∨ (c = k ∧ x = a) := by
  by_cases hc : c = k
  · subst hc
    rw [Function.update_self, List.mem_append, List.mem_singleton]
    exact or_congr_right (and_iff_right rfl).symm
  · rw [Function.update_of_ne hc]
    exact (or_iff_left fun h => hc h.1).symm

end Several

end Memory
