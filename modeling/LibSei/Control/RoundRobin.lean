-- SUMMARY: Going round a fixed number of places: which members of a set are visited, with which period, and that none is left out.
import Mathlib.Data.Nat.Nth
import Mathlib.Data.Nat.Periodic
import Mathlib.Tactic

/-!
# Going round

A cursor goes round `n` places and stops at those that are in a set. Positions are counted
through all rounds, so the stops are the numbers whose remainder is in the set, in order.
-/

namespace Control

namespace RoundRobin

variable {n : Nat} {H : Finset Nat}

/-- Position `x` is at a member of the set. -/
def AtMember (n : Nat) (H : Finset Nat) (x : Nat) : Prop := x % n ∈ H

instance : DecidablePred (AtMember n H) := fun x => inferInstanceAs (Decidable (x % n ∈ H))

/-- The member visited when `i` others were visited since the cursor was at `start`. -/
noncomputable def visit (n : Nat) (H : Finset Nat) (start i : Nat) : Nat :=
  Nat.nth (AtMember n H) (Nat.count (AtMember n H) start + i) % n

theorem atMember_add_round (x : Nat) : AtMember n H (x + n) ↔ AtMember n H x := by
  rw [AtMember, AtMember, Nat.add_mod_right]

theorem atMember_of_mem {c : Nat} (hlt : c < n) (hc : c ∈ H) (r : Nat) : AtMember n H (c + n * r) := by
  rwa [AtMember, Nat.add_mul_mod_self_left, Nat.mod_eq_of_lt hlt]

section Members

variable (hlt : ∀ c ∈ H, c < n)

include hlt

/-- A round passes every member. -/
theorem count_add_round (x : Nat) :
    Nat.count (AtMember n H) (x + n) = Nat.count (AtMember n H) x + H.card := by
  have hperiodic : Function.Periodic (AtMember n H) n := fun x => propext (atMember_add_round x)
  have hround : Nat.count (AtMember n H) n = H.card := by
    rw [Nat.count_eq_card_filter_range]
    congr 1
    ext c
    rw [Finset.mem_filter, Finset.mem_range, AtMember]
    refine ⟨fun h => ?_, fun h => ⟨hlt c h, ?_⟩⟩
    · rwa [Nat.mod_eq_of_lt h.1, and_iff_right h.1] at h
    · rwa [Nat.mod_eq_of_lt (hlt c h)]
  have hsplit : Finset.range (x + n) = Finset.range x ∪ Finset.Ico x (x + n) := by
    rw [Finset.range_eq_Ico, Finset.range_eq_Ico, Finset.Ico_union_Ico_eq_Ico (Nat.zero_le x) (by omega)]
  have hdisjoint : Disjoint (Finset.range x) (Finset.Ico x (x + n)) := by
    rw [Finset.range_eq_Ico]
    exact Finset.Ico_disjoint_Ico_consecutive 0 x (x + n)
  rw [Nat.count_eq_card_filter_range, hsplit, Finset.filter_union,
    Finset.card_union_of_disjoint (Finset.disjoint_filter_filter hdisjoint),
    Nat.filter_Ico_card_eq_of_periodic _ _ _ hperiodic, hround, Nat.count_eq_card_filter_range]

variable (hH : H.Nonempty)

include hH

theorem infinite_atMember : {x | AtMember n H x}.Infinite := by
  obtain ⟨c, hc⟩ := hH
  refine Set.infinite_of_not_bddAbove fun ⟨b, hb⟩ => ?_
  have hle := hb (atMember_of_mem (hlt c hc) hc (b + 1))
  have hpos : 0 < n := Nat.zero_lt_of_lt (hlt c hc)
  have hmul : b + 1 ≤ n * (b + 1) := Nat.le_mul_of_pos_left _ hpos
  omega

theorem atMember_nth (j : Nat) : AtMember n H (Nat.nth (AtMember n H) j) :=
  Nat.nth_mem_of_infinite (infinite_atMember hlt hH) j

theorem count_nth (j : Nat) : Nat.count (AtMember n H) (Nat.nth (AtMember n H) j) = j :=
  Nat.count_nth_of_infinite (infinite_atMember hlt hH) j

/-- As many visits later as there are members, the cursor is at the same place a round later. -/
theorem nth_add_card (j : Nat) :
    Nat.nth (AtMember n H) (j + H.card) = Nat.nth (AtMember n H) j + n := by
  have hmem : AtMember n H (Nat.nth (AtMember n H) j + n) :=
    (atMember_add_round _).mpr (atMember_nth hlt hH j)
  have hcount : Nat.count (AtMember n H) (Nat.nth (AtMember n H) j + n) = j + H.card := by
    rw [count_add_round hlt, count_nth hlt hH]
  rw [← hcount, Nat.nth_count hmem]

theorem visit_mem (start i : Nat) : visit n H start i ∈ H := atMember_nth hlt hH _

theorem visit_add_card (start i : Nat) : visit n H start (i + H.card) = visit n H start i := by
  rw [visit, ← Nat.add_assoc, nth_add_card hlt hH, Nat.add_mod_right, visit]

/-- In which round the cursor is does not matter. -/
theorem visit_mod (start i : Nat) : visit n H (start % n) i = visit n H start i := by
  have hround : ∀ x r, visit n H (x + n * r) i = visit n H x i := by
    intro x r
    induction r with
    | zero => rfl
    | succ r ih =>
      rw [← ih, Nat.mul_succ, ← Nat.add_assoc, visit, count_add_round hlt, Nat.add_right_comm,
        nth_add_card hlt hH, Nat.add_mod_right, visit]
  conv_rhs => rw [← Nat.mod_add_div start n]
  exact (hround _ _).symm

/-- Of as many visits as there are members, exactly one is to a given member. -/
theorem existsUnique_visit (start i : Nat) {c : Nat} (hc : c ∈ H) :
    ∃! j, j < H.card ∧ visit n H start (i + j) = c := by
  generalize hk : Nat.count (AtMember n H) start + i = k
  have hvisit : ∀ j, visit n H start (i + j) = Nat.nth (AtMember n H) (k + j) % n := by
    intro j
    rw [visit, ← Nat.add_assoc, hk]
  generalize hp : Nat.nth (AtMember n H) k = p
  have hcount : Nat.count (AtMember n H) p = k := by rw [← hp, count_nth hlt hH]
  have hpos : 0 < n := Nat.zero_lt_of_lt (hlt c hc)
  -- The place of `c` in the round that starts at `p`.
  obtain ⟨x, hpx, hxp, hxc⟩ : ∃ x, p ≤ x ∧ x < p + n ∧ x % n = c := by
    have hmod : p % n < n := Nat.mod_lt p hpos
    refine ⟨p + (c + n - p % n) % n, by omega, ?_, ?_⟩
    · have hoffset := Nat.mod_lt (c + n - p % n) hpos
      omega
    · have hlt' := hlt c hc
      rw [Nat.add_mod_mod, ← Nat.mod_add_mod, show p % n + (c + n - p % n) = c + n by omega,
        Nat.add_mod_right, Nat.mod_eq_of_lt hlt']
  have hx : AtMember n H x := by rwa [AtMember, hxc]
  have hlow : k ≤ Nat.count (AtMember n H) x := hcount ▸ Nat.count_monotone _ hpx
  have hhigh : Nat.count (AtMember n H) x < k + H.card := by
    rw [← hcount, ← count_add_round hlt]
    exact Nat.count_strict_mono hx hxp
  refine ⟨Nat.count (AtMember n H) x - k, ⟨by omega, ?_⟩, ?_⟩
  · rw [hvisit, Nat.add_sub_cancel' hlow, Nat.nth_count hx, hxc]
  · rintro j ⟨hj, hjc⟩
    -- Both visits lie in one round.
    have hmono := Nat.nth_strictMono (infinite_atMember hlt hH)
    have hfrom : p ≤ Nat.nth (AtMember n H) (k + j) := hp ▸ hmono.monotone (Nat.le_add_right k j)
    have hto : Nat.nth (AtMember n H) (k + j) < p + n := by
      rw [← hp, ← nth_add_card hlt hH]
      exact hmono (by omega)
    have hmod : Nat.nth (AtMember n H) (k + j) % n = x % n := by rw [← hvisit, hjc, hxc]
    have hsame : Nat.nth (AtMember n H) (k + j) = x :=
      Nat.mod_injOn_Ico p n (by simpa using ⟨hfrom, hto⟩) (by simpa using ⟨hpx, hxp⟩) hmod
    have hidx := count_nth hlt hH (k + j)
    rw [hsame] at hidx
    omega

/-- A scan from the cursor finds the next visit. The visits that follow are those of a cursor
behind it. -/
theorem visit_of_scan {start d : Nat} (hd : (start + d) % n ∈ H)
    (hbefore : ∀ j < d, (start + j) % n ∉ H) :
    visit n H start 0 = (start + d) % n ∧
      ∀ i, visit n H start (i + 1) = visit n H (((start + d) % n + 1) % n) i := by
  have hmem : AtMember n H (start + d) := hd
  have hcount : Nat.count (AtMember n H) (start + d) = Nat.count (AtMember n H) start := by
    rw [Nat.count_add, Nat.add_eq_left, Nat.count_eq_card_filter_range, Finset.card_eq_zero,
      Finset.filter_eq_empty_iff]
    exact fun j hj => hbefore j (Finset.mem_range.mp hj)
  refine ⟨?_, fun i => ?_⟩
  · rw [visit, Nat.add_zero, ← hcount, Nat.nth_count hmem]
  · rw [Nat.mod_add_mod, visit_mod hlt hH, visit, visit, Nat.count_succ, if_pos hmem, hcount,
      Nat.add_assoc, Nat.add_comm 1 i]

end Members

end RoundRobin

end Control
