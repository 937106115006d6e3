-- SUMMARY: Runs that may stop early: sequencing, requirements, counted loops and loops over lists, with their rules.
import Mathlib.Tactic

/-!
# Runs that may stop

A run is an `Except` value over an arbitrary type of reasons to stop. The rules
here peel a sequenced run apart, say when a requirement lets it go on, and give
for each kind of loop what its success and its first stop mean.
-/

namespace Control

variable {ε α β σ : Type}

/-! ## Sequencing -/

@[simp] theorem ok_bind (a : α) (f : α → Except ε β) : ((.ok a : Except ε α) >>= f) = f a := rfl

@[simp] theorem error_bind (e : ε) (f : α → Except ε β) :
    ((.error e : Except ε α) >>= f) = .error e := rfl

@[simp] theorem pure_eq_ok (a : α) : (pure a : Except ε α) = .ok a := rfl

theorem bind_eq_ok {x : Except ε α} {f : α → Except ε β} {r : β} :
    (x >>= f) = .ok r ↔ ∃ a, x = .ok a ∧ f a = .ok r := by
  cases x <;> simp

theorem bind_eq_error {x : Except ε α} {f : α → Except ε β} {e : ε} :
    (x >>= f) = .error e ↔ x = .error e ∨ ∃ a, x = .ok a ∧ f a = .error e := by
  cases x <;> simp

/-- Two steps that only check succeed exactly when both do. -/
theorem seq_eq_ok {x : Except ε Unit} {f : Unit → Except ε β} {r : β} :
    (x >>= f) = .ok r ↔ x = .ok () ∧ f () = .ok r := by
  cases x <;> simp

theorem seq_eq_error {x : Except ε Unit} {f : Unit → Except ε β} {e : ε} :
    (x >>= f) = .error e ↔ x = .error e ∨ (x = .ok () ∧ f () = .error e) := by
  cases x <;> simp

theorem ok_ne_error (a : α) (e : ε) : (.ok a : Except ε α) ≠ .error e := fun h => by cases h

/-- A reason that neither part stops for. -/
theorem bind_ne_error {x : Except ε α} {f : α → Except ε β} {e : ε} (hx : x ≠ .error e)
    (hf : ∀ a, x = .ok a → f a ≠ .error e) : (x >>= f) ≠ .error e := by
  intro h
  rcases bind_eq_error.mp h with hstop | ⟨a, ha, hstop⟩
  · exact hx hstop
  · exact hf a ha hstop

/-! ## Requirements -/

/-- Stop for the reason `e` unless `c` holds. -/
def require (c : Prop) [Decidable c] (e : ε) : Except ε Unit :=
  if c then .ok () else .error e

section Require

variable {c : Prop} [Decidable c] {e : ε}

theorem require_of (h : c) : require c e = .ok () := if_pos h

theorem require_of_not (h : ¬ c) : require c e = .error e := if_neg h

/-- What follows a requirement may use it. -/
theorem require_bind_congr {x y : Except ε α} (h : c → x = y) :
    (require c e >>= fun _ => x) = (require c e >>= fun _ => y) := by
  by_cases hc : c
  · rw [h hc]
  · rw [require_of_not hc]
    rfl

theorem require_eq_ok {u : Unit} : require c e = .ok u ↔ c := by
  by_cases h : c <;> simp [require, h]

theorem require_eq_error {e' : ε} : require c e = .error e' ↔ ¬ c ∧ e' = e := by
  by_cases h : c
  · simp [require, h]
  · simp [require, h, eq_comm]

theorem require_ne_error {e' : ε} (h : e' ≠ e) : require c e ≠ .error e' :=
  fun hstop => h (require_eq_error.mp hstop).2

end Require

/-! ## Counted loops -/

/-- Run `f lo`, `f (lo + 1)`, … for `n` iterations, threading a state. -/
def forLoop (f : Nat → σ → Except ε σ) : Nat → Nat → σ → Except ε σ
  | 0, _, s => .ok s
  | n + 1, lo, s => do
      let s ← f lo s
      forLoop f n (lo + 1) s

section ForLoop

variable {f : Nat → σ → Except ε σ} {n lo : Nat} {s : σ}

@[simp] theorem forLoop_zero : forLoop f 0 lo s = .ok s := rfl

theorem forLoop_succ : forLoop f (n + 1) lo s = (f lo s >>= forLoop f n (lo + 1)) := rfl

/-- Total correctness: when the invariant lets every iteration run and is kept by
it, the loop returns and the invariant holds at its end. -/
theorem forLoop_total {P : Nat → σ → Prop}
    (step : ∀ j s, lo ≤ j → j < lo + n → P j s → ∃ s', f j s = .ok s' ∧ P (j + 1) s')
    (start : P lo s) : ∃ s', forLoop f n lo s = .ok s' ∧ P (lo + n) s' := by
  induction n generalizing lo s with
  | zero => exact ⟨s, rfl, start⟩
  | succ n ih =>
    obtain ⟨s', hs', hP⟩ := step lo s (by omega) (by omega) start
    obtain ⟨r, hr, hPr⟩ := ih (fun j s hlo hhi => step j s (by omega) (by omega)) hP
    refine ⟨r, ?_, ?_⟩
    · rw [forLoop_succ, hs', ok_bind, hr]
    · rwa [show lo + (n + 1) = lo + 1 + n by omega]

/-- Partial correctness: what every iteration that returns keeps holds when the loop returns. -/
theorem forLoop_invariant {P : Nat → σ → Prop} {s' : σ}
    (step : ∀ j s s', lo ≤ j → P j s → f j s = .ok s' → P (j + 1) s') (start : P lo s)
    (h : forLoop f n lo s = .ok s') : P (lo + n) s' := by
  induction n generalizing lo s with
  | zero =>
    cases h
    exact start
  | succ n ih =>
    rw [forLoop_succ, bind_eq_ok] at h
    obtain ⟨s1, hs1, hrest⟩ := h
    have hP := ih (fun j s s' hlo => step j s s' (by omega))
      (step lo s s1 (le_refl lo) start hs1) hrest
    rw [Nat.add_assoc, Nat.add_comm 1 n] at hP
    exact hP

/-- A loop whose iterations go on under a condition of their own and change the state in a
fixed way. -/
theorem forLoop_eq_ok {V : Nat → Prop} {g : Nat → σ → σ} {s' : σ}
    (hstep : ∀ j s s', f j s = .ok s' ↔ V j ∧ s' = g j s) :
    forLoop f n lo s = .ok s' ↔ (∀ j ∈ List.range' lo n, V j) ∧
      s' = (List.range' lo n).foldl (fun s j => g j s) s := by
  induction n generalizing lo s with
  | zero => simp [eq_comm]
  | succ n ih =>
    rw [forLoop_succ, bind_eq_ok, List.range'_succ, List.forall_mem_cons, List.foldl_cons]
    constructor
    · rintro ⟨s1, hs1, hrest⟩
      obtain ⟨hlo, rfl⟩ := (hstep lo s s1).mp hs1
      obtain ⟨hall, rfl⟩ := ih.mp hrest
      exact ⟨⟨hlo, hall⟩, rfl⟩
    · rintro ⟨⟨hlo, hall⟩, rfl⟩
      exact ⟨g lo s, (hstep lo s _).mpr ⟨hlo, rfl⟩, ih.mpr ⟨hall, rfl⟩⟩

/-- Such a loop from 0 on, in front of a value built from the state it leaves. -/
theorem forLoop_then_eq_ok {V : Nat → Prop} {g : Nat → σ → σ} {k : σ → β} {r : β}
    (hstep : ∀ j s s', f j s = .ok s' ↔ V j ∧ s' = g j s) :
    (forLoop f n 0 s >>= fun s' => pure (k s')) = .ok r ↔ (∀ j < n, V j) ∧
      r = k ((List.range' 0 n).foldl (fun s j => g j s) s) := by
  simp only [bind_eq_ok, forLoop_eq_ok hstep, pure_eq_ok, Except.ok.injEq]
  constructor
  · rintro ⟨_, ⟨hall, rfl⟩, rfl⟩
    exact ⟨fun j hj => hall j (by simpa using hj), rfl⟩
  · rintro ⟨hall, rfl⟩
    exact ⟨_, ⟨fun j hj => hall j (by simpa using hj), rfl⟩, rfl⟩

/-- A loop stops when some iteration does; the iterations before it returned. -/
theorem forLoop_eq_error {e : ε} : forLoop f n lo s = .error e ↔
    ∃ k < n, ∃ s', forLoop f k lo s = .ok s' ∧ f (lo + k) s' = .error e := by
  induction n generalizing lo s with
  | zero => simp
  | succ n ih =>
    rw [forLoop_succ, bind_eq_error]
    constructor
    · rintro (h | ⟨s', hs', h⟩)
      · exact ⟨0, by omega, s, rfl, h⟩
      · obtain ⟨k, hk, r, hr, he⟩ := ih.mp h
        refine ⟨k + 1, by omega, r, ?_, ?_⟩
        · rw [forLoop_succ, hs', ok_bind, hr]
        · rwa [show lo + (k + 1) = lo + 1 + k by omega]
    · rintro ⟨k, hk, r, hr, he⟩
      cases k with
      | zero =>
        rw [forLoop_zero, Except.ok.injEq] at hr
        exact .inl (hr ▸ he)
      | succ k =>
        rw [forLoop_succ, bind_eq_ok] at hr
        obtain ⟨s', hs', hr⟩ := hr
        refine .inr ⟨s', hs', ih.mpr ⟨k, by omega, r, hr, ?_⟩⟩
        rwa [show lo + 1 + k = lo + (k + 1) by omega]

theorem forLoop_ne_error {e : ε} (h : ∀ i s, f i s ≠ .error e) : forLoop f n lo s ≠ .error e := by
  intro hstop
  obtain ⟨k, _, s', _, hk⟩ := forLoop_eq_error.mp hstop
  exact h _ _ hk

end ForLoop

/-- A loop that only checks. -/
def checkLoop (g : Nat → Except ε Unit) (n lo : Nat) : Except ε Unit :=
  forLoop (fun i _ => g i) n lo ()

section CheckLoop

variable {g : Nat → Except ε Unit} {n lo : Nat}

theorem checkLoop_succ : checkLoop g (n + 1) lo = (g lo >>= fun _ => checkLoop g n (lo + 1)) := rfl

theorem checkLoop_one : checkLoop g 1 lo = g lo := by
  rw [checkLoop_succ]
  cases g lo <;> rfl

theorem checkLoop_eq_ok {u : Unit} :
    checkLoop g n lo = .ok u ↔ ∀ i, lo ≤ i → i < lo + n → g i = .ok () := by
  induction n generalizing lo with
  | zero =>
    constructor
    · intro _ i hlo hhi
      omega
    · exact fun _ => rfl
  | succ n ih =>
    rw [checkLoop_succ, seq_eq_ok, ih]
    constructor
    · rintro ⟨h0, h⟩ i hlo hhi
      rcases Nat.eq_or_lt_of_le hlo with rfl | hlt
      · exact h0
      · exact h i (by omega) (by omega)
    · exact fun h => ⟨h lo (by omega) (by omega), fun i hlo hhi => h i (by omega) (by omega)⟩

/-- A checking loop stops at its first failing index. -/
theorem checkLoop_eq_error {e : ε} : checkLoop g n lo = .error e ↔
    ∃ k < n, (∀ i, lo ≤ i → i < lo + k → g i = .ok ()) ∧ g (lo + k) = .error e := by
  unfold checkLoop
  rw [forLoop_eq_error]
  constructor
  · rintro ⟨k, hk, _, hr, he⟩
    exact ⟨k, hk, checkLoop_eq_ok.mp hr, he⟩
  · rintro ⟨k, hk, hr, he⟩
    exact ⟨k, hk, (), checkLoop_eq_ok.mpr hr, he⟩

theorem checkLoop_ne_error {e : ε} (h : ∀ i, g i ≠ .error e) : checkLoop g n lo ≠ .error e :=
  forLoop_ne_error fun i _ => h i

end CheckLoop

/-! ## Loops over a list -/

/-- Check the elements of a list in order. -/
def checkEach (g : α → Except ε Unit) : List α → Except ε Unit
  | [] => .ok ()
  | x :: xs => do
      g x
      checkEach g xs

section CheckEach

variable {g : α → Except ε Unit} {xs : List α}

theorem checkEach_cons {x : α} : checkEach g (x :: xs) = (g x >>= fun _ => checkEach g xs) := rfl

theorem checkEach_eq_ok {u : Unit} : checkEach g xs = .ok u ↔ ∀ x ∈ xs, g x = .ok () := by
  induction xs with
  | nil => simp [checkEach]
  | cons x xs ih => rw [checkEach_cons, seq_eq_ok, ih, List.forall_mem_cons]

/-- When every element either passes or stops for a reason of one kind, the loop
stops for such a reason exactly when some element does not pass. -/
theorem checkEach_error_of_kind {K : ε → Prop} (hK : ∀ x ∈ xs, ∀ e, g x = .error e → K e) :
    (∃ e, K e ∧ checkEach g xs = .error e) ↔ ∃ x ∈ xs, g x ≠ .ok () := by
  induction xs with
  | nil => simp [checkEach]
  | cons x xs ih =>
    have ih := ih (fun y hy => hK y (List.mem_cons_of_mem _ hy))
    cases hx : g x with
    | error e =>
      have : checkEach g (x :: xs) = .error e := by rw [checkEach_cons, hx, error_bind]
      simp only [this, List.exists_mem_cons_iff, hx]
      exact ⟨fun _ => .inl (by simp), fun _ => ⟨e, hK x List.mem_cons_self e hx, rfl⟩⟩
    | ok u =>
      have : checkEach g (x :: xs) = checkEach g xs := by rw [checkEach_cons, hx, ok_bind]
      rw [this, ih, List.exists_mem_cons_iff, hx]
      simp

theorem checkEach_ne_error {e : ε} (h : ∀ x ∈ xs, g x ≠ .error e) : checkEach g xs ≠ .error e := by
  induction xs with
  | nil => exact ok_ne_error () e
  | cons x xs ih =>
    rw [List.forall_mem_cons] at h
    rw [checkEach_cons]
    exact bind_ne_error h.1 fun _ _ => ih h.2

end CheckEach

/-! ## Collecting indices -/

/-- Visit `n` indices from `lo` on and keep those whose visit answers `true`. Before
an index is kept, `room` is asked whether the collection may grow past its length. -/
def collect (visit : Nat → Except ε Bool) (room : Nat → Except ε Unit) (n lo : Nat)
    (acc : List Nat) : Except ε (List Nat) :=
  forLoop (fun i acc => do
    if ← visit i then
      room acc.length
      return acc ++ [i]
    else
      return acc) n lo acc

section Collect

variable {visit : Nat → Except ε Bool} {room : Nat → Except ε Unit} {n lo : Nat} {acc r : List Nat}

theorem collect_succ : collect visit room (n + 1) lo acc = (do
    if ← visit lo then
      room acc.length
      collect visit room n (lo + 1) (acc ++ [lo])
    else
      collect visit room n (lo + 1) acc) := by
  rw [collect, forLoop_succ]
  cases visit lo with
  | error e => rfl
  | ok c =>
    cases c with
    | false => rfl
    | true => cases room acc.length <;> simp [collect]

/-- When the visits answer by `pick`, a collection that returns has found room for
every picked index and holds the picked indices in order. -/
private theorem collect_eq_ok (pick : Nat → Bool)
    (hpick : ∀ i c, lo ≤ i → i < lo + n → visit i = .ok c → c = pick i) :
    collect visit room n lo acc = .ok r ↔
      (∀ i, lo ≤ i → i < lo + n → visit i = .ok (pick i)) ∧
      r = acc ++ (List.range' lo n).filter pick ∧
      ∀ k, acc.length ≤ k → k < r.length → room k = .ok () := by
  induction n generalizing lo acc with
  | zero =>
    simp only [collect, forLoop_zero, Except.ok.injEq, List.range'_zero, List.filter_nil,
      List.append_nil]
    constructor
    · rintro rfl
      exact ⟨fun i hlo hhi => by omega, rfl, fun k hle hlt => by omega⟩
    · exact fun h => h.2.1.symm
  | succ n ih =>
    have hpick' : ∀ i c, lo + 1 ≤ i → i < lo + 1 + n → visit i = .ok c → c = pick i :=
      fun i c hlo hhi => hpick i c (by omega) (by omega)
    have hhead : (∀ i, lo ≤ i → i < lo + (n + 1) → visit i = .ok (pick i)) ↔
        visit lo = .ok (pick lo) ∧ ∀ i, lo + 1 ≤ i → i < lo + 1 + n → visit i = .ok (pick i) := by
      constructor
      · exact fun h => ⟨h lo (by omega) (by omega), fun i hlo hhi => h i (by omega) (by omega)⟩
      · rintro ⟨h0, h⟩ i hlo hhi
        rcases Nat.eq_or_lt_of_le hlo with rfl | hlt
        · exact h0
        · exact h i (by omega) (by omega)
    rw [collect_succ, hhead, List.range'_succ]
    cases hv : visit lo with
    | error e => simp
    | ok c =>
      obtain rfl := hpick lo c (by omega) (by omega) hv
      cases hc : pick lo with
      | false =>
        simp only [ok_bind, Bool.false_eq_true, if_false, List.filter_cons, hc, true_and]
        exact ih hpick'
      | true =>
        simp only [ok_bind, if_true, List.filter_cons, hc, true_and]
        rw [seq_eq_ok, ih hpick', List.append_cons acc lo (List.filter _ _)]
        constructor
        · rintro ⟨hroom, hvisit, rfl, hrest⟩
          refine ⟨hvisit, rfl, fun k hle hlt => ?_⟩
          rcases Nat.eq_or_lt_of_le hle with rfl | hgt
          · exact hroom
          · exact hrest k (by simpa using hgt) hlt
        · rintro ⟨hvisit, rfl, hrest⟩
          refine ⟨hrest _ (le_refl _) (by simp), hvisit, rfl, fun k hle hlt => ?_⟩
          exact hrest k (by simp at hle; omega) hlt

/-- A collection stops at the first index whose visit stops, or that is picked when
there is no room left. -/
private theorem collect_eq_error (pick : Nat → Bool) {e : ε}
    (hpick : ∀ i c, lo ≤ i → i < lo + n → visit i = .ok c → c = pick i) :
    collect visit room n lo [] = .error e ↔
      ∃ k < n, (∀ i, lo ≤ i → i < lo + k → visit i = .ok (pick i)) ∧
        (∀ j < ((List.range' lo k).filter pick).length, room j = .ok ()) ∧
        (visit (lo + k) = .error e ∨
          (visit (lo + k) = .ok true ∧
            room ((List.range' lo k).filter pick).length = .error e)) := by
  have hstep : ∀ (k : Nat) (acc : List Nat),
      (do if ← visit (lo + k) then
            room acc.length
            return acc ++ [lo + k]
          else
            return acc : Except ε (List Nat)) = .error e ↔
        visit (lo + k) = .error e ∨
          (visit (lo + k) = .ok true ∧ room acc.length = .error e) := by
    intro k acc
    cases hv : visit (lo + k) with
    | error e' => simp
    | ok c =>
      cases c with
      | false => simp
      | true => simp [seq_eq_error]
  have hok : ∀ k ≤ n, ∀ acc, collect visit room k lo [] = .ok acc ↔
      (∀ i, lo ≤ i → i < lo + k → visit i = .ok (pick i)) ∧
      acc = (List.range' lo k).filter pick ∧ ∀ j, j < acc.length → room j = .ok () := by
    intro k hk acc
    rw [collect_eq_ok pick (fun i c hlo hhi => hpick i c hlo (by omega))]
    simp
  unfold collect
  rw [forLoop_eq_error]
  constructor
  · rintro ⟨k, hk, acc, hacc, he⟩
    obtain ⟨hvisit, rfl, hroom⟩ := (hok k (by omega) acc).mp hacc
    exact ⟨k, hk, hvisit, hroom, (hstep k _).mp he⟩
  · rintro ⟨k, hk, hvisit, hroom, he⟩
    exact ⟨k, hk, _, (hok k (by omega) _).mpr ⟨hvisit, rfl, hroom⟩, (hstep k _).mpr he⟩

variable {V : Nat → Prop} {pick : Nat → Bool} {cap : Nat}

/-- A collection of at most `cap` indices, where the visit of `i` passes under `V i`. -/
theorem collect_capped_eq_ok (hvisit : ∀ i < n, ∀ c, visit i = .ok c ↔ V i ∧ c = pick i)
    (hroom : ∀ j, room j = .ok () ↔ j < cap) :
    collect visit room n 0 [] = .ok r ↔
      (∀ i < n, V i) ∧ r = (List.range' 0 n).filter pick ∧ r.length ≤ cap := by
  rw [collect_eq_ok pick (fun i c _ hi h => ((hvisit i (by omega) c).mp h).2)]
  simp only [Nat.zero_le, Nat.zero_add, true_implies, List.nil_append, List.length_nil, hroom]
  refine and_congr ?_ (and_congr Iff.rfl ?_)
  · exact forall₂_congr fun i hi => by rw [hvisit i hi]; simp
  · constructor
    · intro h
      by_contra hlt
      exact absurd (h cap (by omega)) (lt_irrefl cap)
    · exact fun h k hk => Nat.lt_of_lt_of_le hk h

/-- Where a capped collection stops: at the first index whose visit stops, or at the
first picked index beyond the capacity. -/
private theorem collect_capped_eq_error {e : ε}
    (hvisit : ∀ i < n, ∀ c, visit i = .ok c ↔ V i ∧ c = pick i)
    (hroom : ∀ j, room j = .ok () ↔ j < cap) :
    collect visit room n 0 [] = .error e ↔
      ∃ k < n, (∀ i < k, V i) ∧ ((List.range' 0 k).filter pick).length ≤ cap ∧
        (visit k = .error e ∨
          V k ∧ pick k = true ∧ room ((List.range' 0 k).filter pick).length = .error e) := by
  rw [collect_eq_error pick (fun i c _ hi h => ((hvisit i (by omega) c).mp h).2)]
  refine exists_congr fun k => and_congr_right fun hk => ?_
  simp only [Nat.zero_le, Nat.zero_add, true_implies, hroom]
  refine and_congr ?_ (and_congr ?_ (or_congr Iff.rfl ?_))
  · exact forall₂_congr fun i hi => by rw [hvisit i (by omega)]; simp
  · constructor
    · intro h
      by_contra hlt
      exact absurd (h cap (by omega)) (lt_irrefl cap)
    · exact fun h j hj => Nat.lt_of_lt_of_le hj h
  · rw [hvisit k hk, and_assoc, eq_comm (a := true)]

/-- A capped collection stops for a reason of one kind when a visit or a full
collection gives such a reason. -/
theorem collect_capped_error_of_kind {K : ε → Prop}
    (hvisit : ∀ i < n, ∀ c, visit i = .ok c ↔ V i ∧ c = pick i)
    (hroom : ∀ j, room j = .ok () ↔ j < cap) :
    (∃ e, K e ∧ collect visit room n 0 [] = .error e) ↔
      ∃ k < n, (∀ i < k, V i) ∧ ((List.range' 0 k).filter pick).length ≤ cap ∧
        ((∃ e, K e ∧ visit k = .error e) ∨ V k ∧ pick k = true ∧
          ∃ e, K e ∧ room ((List.range' 0 k).filter pick).length = .error e) := by
  simp only [collect_capped_eq_error hvisit hroom]
  constructor
  · rintro ⟨e, he, k, hk, hbefore, hcap, hstop | ⟨hV, hpick, hstop⟩⟩
    · exact ⟨k, hk, hbefore, hcap, .inl ⟨e, he, hstop⟩⟩
    · exact ⟨k, hk, hbefore, hcap, .inr ⟨hV, hpick, e, he, hstop⟩⟩
  · rintro ⟨k, hk, hbefore, hcap, ⟨e, he, hstop⟩ | ⟨hV, hpick, e, he, hstop⟩⟩
    · exact ⟨e, he, k, hk, hbefore, hcap, .inl hstop⟩
    · exact ⟨e, he, k, hk, hbefore, hcap, .inr ⟨hV, hpick, hstop⟩⟩

theorem collect_ne_error {e : ε} (hvisit : ∀ i, visit i ≠ .error e)
    (hroom : ∀ k, room k ≠ .error e) : collect visit room n lo acc ≠ .error e := by
  refine forLoop_ne_error fun i acc => bind_ne_error (hvisit i) fun c _ => ?_
  cases c with
  | false => exact ok_ne_error acc e
  | true => exact bind_ne_error (hroom _) fun _ _ => ok_ne_error _ e

/-- A collection stops for want of room, if no visit stops for that reason, exactly when more than
`cap` of the indices before the first that does not pass are picked. -/
theorem collect_full_iff [DecidablePred V] {e : ε}
    (hvisit : ∀ i, lo ≤ i → i < lo + n → ∀ c, visit i = .ok c ↔ V i ∧ c = pick i)
    (hother : ∀ i, visit i ≠ .error e) (hroom : ∀ k < cap, room k = .ok ())
    (hfull : room cap = .error e) (hacc : acc.length ≤ cap) :
    collect visit room n lo acc = .error e ↔
      cap < acc.length +
        (((List.range' lo n).takeWhile fun i => decide (V i)).filter pick).length := by
  induction n generalizing lo acc with
  | zero =>
    refine iff_of_false (ok_ne_error acc e) ?_
    simpa using hacc
  | succ n ih =>
    have hrest : ∀ i, lo + 1 ≤ i → i < lo + 1 + n → ∀ c, visit i = .ok c ↔ V i ∧ c = pick i :=
      fun i hlo hhi => hvisit i (by omega) (by omega)
    rw [collect_succ, List.range'_succ]
    by_cases hV : V lo
    · rw [List.takeWhile_cons_of_pos (by simpa using hV),
        (hvisit lo (le_refl lo) (by omega) (pick lo)).mpr ⟨hV, rfl⟩, ok_bind]
      cases hpick : pick lo with
      | false =>
        rw [if_neg (by decide), List.filter_cons_of_neg (by simp [hpick])]
        exact ih hrest hacc
      | true =>
        rw [if_pos rfl, List.filter_cons_of_pos hpick, List.length_cons]
        rcases Nat.lt_or_eq_of_le hacc with hlt | heq
        · rw [hroom _ hlt, ok_bind, ih hrest (by simpa using hlt), List.length_append,
            List.length_singleton]
          omega
        · rw [heq, hfull]
          exact iff_of_true rfl (by omega)
    · -- the visit stops, and not for want of room
      rw [List.takeWhile_cons_of_neg (by simpa using hV)]
      refine iff_of_false ?_ (by simpa using hacc)
      refine bind_ne_error (hother lo) fun c hc => ?_
      exact absurd ((hvisit lo (le_refl lo) (by omega) c).mp hc).1 hV

end Collect

/-! ## Calls in sequence -/

variable {κ ρ : Type}

/-- Make the calls of a list one after the other on a state and collect their results. -/
def runEach (f : κ → σ → Except ε (ρ × σ)) : List κ → σ → Except ε (List ρ × σ)
  | [], s => .ok ([], s)
  | x :: xs, s => do
      let (r, s) ← f x s
      let (rs, s) ← runEach f xs s
      return (r :: rs, s)

section RunEach

variable {f : κ → σ → Except ε (ρ × σ)} {x : κ} {xs : List κ} {s s' : σ} {rs : List ρ}

@[simp] theorem runEach_nil : runEach f [] s = .ok ([], s) := rfl

theorem runEach_cons_eq_ok : runEach f (x :: xs) s = .ok (rs, s') ↔
    ∃ r s1 rs1, f x s = .ok (r, s1) ∧ runEach f xs s1 = .ok (rs1, s') ∧ rs = r :: rs1 := by
  simp only [runEach, bind_eq_ok, pure_eq_ok, Except.ok.injEq, Prod.mk.injEq]
  constructor
  · rintro ⟨⟨r, s1⟩, hx, ⟨rs1, s2⟩, hxs, rfl, rfl⟩
    exact ⟨r, s1, rs1, hx, hxs, rfl⟩
  · rintro ⟨r, s1, rs1, hx, hxs, rfl⟩
    exact ⟨(r, s1), hx, (rs1, s'), hxs, rfl, rfl⟩

theorem runEach_cons_of {r : ρ} {s1 : σ} (hx : f x s = .ok (r, s1))
    (hxs : runEach f xs s1 = .ok (rs, s')) : runEach f (x :: xs) s = .ok (r :: rs, s') :=
  runEach_cons_eq_ok.mpr ⟨r, s1, rs, hx, hxs, rfl⟩

/-- A step that is matched from related states is matched along every sequence of calls. -/
theorem runEach_simulates {τ : Type} {ε' : Type} {R : σ → τ → Prop} {g : κ → τ → Except ε' (ρ × τ)}
    (hstep : ∀ x s t r s', R s t → f x s = .ok (r, s') → ∃ t', g x t = .ok (r, t') ∧ R s' t')
    {t : τ} (hR : R s t) (hrun : runEach f xs s = .ok (rs, s')) :
    ∃ t', runEach g xs t = .ok (rs, t') ∧ R s' t' := by
  induction xs generalizing s t rs with
  | nil =>
    cases hrun
    exact ⟨t, rfl, hR⟩
  | cons x xs ih =>
    obtain ⟨r, s1, rs1, hx, hxs, rfl⟩ := runEach_cons_eq_ok.mp hrun
    obtain ⟨t1, hx', hR1⟩ := hstep x s t r s1 hR hx
    obtain ⟨t', hxs', hR'⟩ := ih hR1 hxs
    exact ⟨t', runEach_cons_of hx' hxs', hR'⟩

end RunEach

end Control
