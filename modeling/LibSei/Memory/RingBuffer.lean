-- SUMMARY: Rings of slots that are cleared as they are taken: what a slot holds after a number of takes, and a ring as a window on a tape.
import Mathlib.Logic.Function.Basic
import Mathlib.Tactic.ByContra

/-!
# Ring buffers

A ring has `n` slots; the element at position `i` lies in slot `i % n`. Taking elements
one after the other from position `h` on clears their slots, so each slot is found
filled at most once however many elements are taken.

Seen from outside a ring is a window of `n` positions on an endless tape: it moves on by
one position when an element is taken.
-/

namespace RingBuffer

variable {α : Type} {n h k : Nat} {fresh : α} {slots : Nat → α}

/-- The slots after `k` elements have been taken from position `h` on. -/
def taken (n h k : Nat) (fresh : α) (slots : Nat → α) (j : Nat) : α :=
  if ∃ i < k, (h + i) % n = j then fresh else slots j

/-- Taking one more element clears its slot. -/
theorem taken_succ : taken n h (k + 1) fresh slots =
    Function.update (taken n h k fresh slots) ((h + k) % n) fresh := by
  funext j
  by_cases hj : j = (h + k) % n
  · subst hj
    rw [Function.update_self, taken, if_pos ⟨k, by omega, rfl⟩]
  · rw [Function.update_of_ne hj, taken, taken]
    refine if_congr ?_ rfl rfl
    constructor
    · rintro ⟨i, hi, rfl⟩
      rcases Nat.lt_succ_iff_lt_or_eq.mp hi with hlt | rfl
      · exact ⟨i, hlt, rfl⟩
      · exact absurd rfl hj
    · rintro ⟨i, hi, rfl⟩
      exact ⟨i, by omega, rfl⟩

/-- The next element is found in the first round only. -/
theorem taken_next (hn : 0 < n) : taken n h k fresh slots ((h + k) % n) =
    if k < n then slots ((h + k) % n) else fresh := by
  unfold taken
  split
  · next hlt =>
    obtain ⟨i, hik, heq⟩ := hlt
    rw [if_neg fun hk => ?_]
    -- two positions less than a round apart have different slots
    have hdvd : n ∣ (h + k) - (h + i) :=
      Nat.dvd_of_mod_eq_zero (Nat.sub_mod_eq_zero_of_mod_eq heq.symm)
    have hle := Nat.le_of_dvd (by omega) hdvd
    omega
  · next hnone =>
    rw [if_pos]
    by_contra hge
    refine hnone ⟨k - n, by omega, ?_⟩
    rw [← Nat.add_mod_right, show h + (k - n) + n = h + k by omega]

/-! ## The ring as a window -/

/-- The slots show the positions `h`, ..., `h + n - 1` of a tape. -/
def Window (n h : Nat) (tape slots : Nat → α) : Prop :=
  ∀ i, h ≤ i → i < h + n → slots (i % n) = tape i

variable {tape : Nat → α}

/-- Two positions in the window have different slots. -/
theorem eq_of_mod_eq {i j : Nat} (hi : h ≤ i) (hi' : i < h + n) (hj : h ≤ j) (hj' : j < h + n)
    (heq : i % n = j % n) : i = j := by
  rcases Nat.le_total i j with hle | hle
  · have hdvd : n ∣ j - i := Nat.dvd_of_mod_eq_zero (Nat.sub_mod_eq_zero_of_mod_eq heq.symm)
    have hzero := Nat.eq_zero_of_dvd_of_lt hdvd (by omega)
    omega
  · have hdvd : n ∣ i - j := Nat.dvd_of_mod_eq_zero (Nat.sub_mod_eq_zero_of_mod_eq heq)
    have hzero := Nat.eq_zero_of_dvd_of_lt hdvd (by omega)
    omega

/-- Writing to a position in the window. -/
theorem Window.write (hw : Window n h tape slots) {t : Nat} (hlo : h ≤ t) (hhi : t < h + n)
    (x : α) : Window n h (Function.update tape t x) (Function.update slots (t % n) x) := by
  intro i hi hi'
  by_cases heq : i = t
  · rw [heq, Function.update_self, Function.update_self]
  · have hslot : i % n ≠ t % n := fun hmod => heq (eq_of_mod_eq hi hi' hlo hhi hmod)
    rw [Function.update_of_ne heq, Function.update_of_ne hslot, hw i hi hi']

/-- Clearing the first slot moves the window on, when the tape is clear behind it. -/
theorem Window.advance (hw : Window n h tape slots) (hclear : tape (h + n) = fresh) :
    Window n (h + 1) tape (Function.update slots (h % n) fresh) := by
  intro i hlo hhi
  by_cases heq : i = h + n
  · rw [heq, Nat.add_mod_right, Function.update_self, hclear]
  · have hslot : i % n ≠ h % n := fun hmod => by
      have := eq_of_mod_eq (n := n) (h := h) (by omega) (by omega) (Nat.le_refl h) (by omega) hmod
      omega
    rw [Function.update_of_ne hslot, hw i (by omega) (by omega)]

end RingBuffer
