-- SUMMARY: Writes laid end to end, ranges filled from a byte function, and rules for programs that fill or copy a range.
import LibSei.Memory.Programs

/-!
# Filling and copying ranges

A program that fills a range with bytes, or copies another range into it, makes writes that
lie end to end, upwards or downwards, whatever their widths. When every write puts the bytes
of one function there, memory after it is known: the function inside the part written so far
and the old memory outside.
-/

namespace Memory

open Width (sizeof)

variable {ws vs : List Write} {a b e e' lo hi : Nat} {m : Mem} {f : Nat → UInt8}

/-! ## Writes end to end -/

/-- The writes lie end to end in ascending order, from `a` up to `e`. -/
def Consecutive : List Write → Nat → Nat → Prop
  | [], a, e => a = e
  | w :: ws, a, e => w.addr = a ∧ Consecutive ws (a + w.size) e

theorem consecutive_singleton (w : Write) : Consecutive [w] w.addr (w.addr + w.size) := ⟨rfl, rfl⟩

theorem Consecutive.append (h : Consecutive ws a e) (h' : Consecutive vs e e') :
    Consecutive (ws ++ vs) a e' := by
  induction ws generalizing a with
  | nil =>
    cases h
    exact h'
  | cons w ws ih => exact ⟨h.1, ih h.2⟩

theorem Consecutive.le (h : Consecutive ws a e) : a ≤ e := by
  induction ws generalizing a with
  | nil => exact Nat.le_of_eq h
  | cons w ws ih => exact (Nat.le_add_right _ _).trans (ih h.2)

/-- How many of the writes cover a byte. -/
def coverCount (ws : List Write) (b : Nat) : Nat := ws.countP fun w => decide (w.Covers b)

theorem coverCount_pos : 0 < coverCount ws b ↔ ∃ w ∈ ws, w.Covers b := by
  simp [coverCount, List.countP_pos_iff]

/-- What a run overwrites lies where it writes. -/
theorem coverCount_olds (ws : List Write) (m : Mem) (b : Nat) :
    coverCount (olds ws m) b = coverCount ws b := by
  induction ws generalizing m with
  | nil => rfl
  | cons w ws ih =>
    rw [olds, coverCount, coverCount, List.countP_cons, List.countP_cons, ← coverCount, ih]
    rfl

/-- Writes that lie end to end cover every byte of the range once and no other. -/
theorem Consecutive.coverCount (h : Consecutive ws a e) :
    Memory.coverCount ws b = if a ≤ b ∧ b < e then 1 else 0 := by
  induction ws generalizing a with
  | nil =>
    cases h
    rw [if_neg (by omega)]
    rfl
  | cons w ws ih =>
    obtain ⟨rfl, hrest⟩ := h
    have hle := hrest.le
    rw [Memory.coverCount, List.countP_cons, ← Memory.coverCount, ih hrest]
    by_cases hw : w.Covers b
    · have hw' := hw
      unfold Write.Covers at hw'
      rw [if_neg (by omega), if_pos (by simpa using hw), if_pos (by omega)]
    · have hw' := hw
      unfold Write.Covers at hw'
      simp only [hw, decide_false, Bool.false_eq_true, if_false, Nat.add_zero]
      split <;> split <;> omega

theorem Consecutive.covers_iff (h : Consecutive ws a e) :
    (∃ w ∈ ws, w.Covers b) ↔ a ≤ b ∧ b < e := by
  rw [← coverCount_pos, h.coverCount]
  split <;> simp_all

/-- Along the write `g` grows by one. -/
def Write.Counts (g : Nat → Nat) (w : Write) : Prop := g (w.addr + w.size) = g w.addr + 1

/-- The number of writes that lie end to end, from a function that counts them. -/
theorem Consecutive.length {g : Nat → Nat} (h : Consecutive ws a e) (hg : ∀ w ∈ ws, w.Counts g) :
    g e = g a + ws.length := by
  induction ws generalizing a with
  | nil => exact congrArg g (Eq.symm h)
  | cons w ws ih =>
    obtain ⟨rfl, hrest⟩ := h
    rw [List.forall_mem_cons] at hg
    have hfirst : g (w.addr + w.size) = g w.addr + 1 := hg.1
    rw [ih hrest hg.2, hfirst, List.length_cons]
    omega

/-! ## Ranges filled from a function -/

/-- The write puts the bytes of `f`. -/
def Write.Puts (f : Nat → UInt8) (w : Write) : Prop := ∀ b, w.Covers b → w.byteAt b = f b

theorem Write.puts_ofNat {n v : Nat} (hf : ∀ i < n, leByte v i = f (lo + i)) :
    (Write.ofNat lo n v).Puts f := by
  rintro b ⟨hle, hlt⟩
  have hle : lo ≤ b := hle
  have hlt : b < lo + n := hlt
  have hbyte := hf (b - lo) (by omega)
  rw [Nat.add_sub_cancel' hle] at hbyte
  rw [← hbyte, Write.byteAt]
  show leByte (v % 256 ^ n) (b - lo) = leByte v (b - lo)
  rw [← leValue_leByte, leByte_leValue (by omega)]

/-- A byte covered by writes that all put the bytes of `f` holds its byte, in whatever order
they were made. -/
theorem runWrites_of_puts (h : ∀ w ∈ ws, w.Puts f) (hb : ∃ w ∈ ws, w.Covers b) :
    runWrites ws m b = f b := by
  obtain ⟨w, hw, hcov⟩ := hb
  obtain ⟨i, hlast⟩ := exists_lastWriter_of_covers hw hcov
  rw [hlast.runWrites hlast.1]
  exact h _ (List.getElem_mem hlast.1) b hlast.2.1

/-- The bytes of `f` from `lo` up to `hi`, and `m` elsewhere. -/
def fill (f : Nat → UInt8) (lo hi : Nat) (m : Mem) : Mem :=
  fun b => if lo ≤ b ∧ b < hi then f b else m b

theorem fill_inside (h : lo ≤ b ∧ b < hi) : fill f lo hi m b = f b := if_pos h

theorem fill_outside (h : ¬ (lo ≤ b ∧ b < hi)) : fill f lo hi m b = m b := if_neg h

theorem fill_empty : fill f lo lo m = m := by
  funext b
  exact fill_outside (by omega)

/-- Writes of the bytes of `f` extend a filled range by the bytes they cover. -/
theorem runWrites_fill {lo' hi' : Nat} (h : ∀ w ∈ ws, w.Puts f)
    (hcov : ∀ b, (lo ≤ b ∧ b < hi) ∨ (∃ w ∈ ws, w.Covers b) ↔ lo' ≤ b ∧ b < hi') :
    runWrites ws (fill f lo hi m) = fill f lo' hi' m := by
  funext b
  by_cases hb : ∃ w ∈ ws, w.Covers b
  · rw [runWrites_of_puts h hb, fill_inside ((hcov b).mp (.inr hb))]
  · rw [runWrites_of_not_covers fun w hw hc => hb ⟨w, hw, hc⟩]
    by_cases hin : lo ≤ b ∧ b < hi
    · rw [fill_inside hin, fill_inside ((hcov b).mp (.inl hin))]
    · rw [fill_outside hin, fill_outside fun hin' => ((hcov b).mpr hin').elim hin hb]

/-! ## Programs that fill a range upwards -/

section Upwards

variable {τ α β : Type} [Width τ] {Q : Write → Prop} {start mid : Nat} {p : Prog τ α}
  {k : α → Prog τ β} {x : α} {r : β}

/-- With `[start, lo)` filled, the program returns `x` and fills `[lo, hi)` upwards, by writes
that satisfy `Q`. -/
def FillsUp (Q : Write → Prop) (f : Nat → UInt8) (m : Mem) (start : Nat) (p : Prog τ α) (lo : Nat)
    (x : α) (hi : Nat) : Prop :=
  ∃ ws, p.Runs (fill f start lo m) x ws ∧ Consecutive ws lo hi ∧ ∀ w ∈ ws, w.Puts f ∧ Q w

theorem fillsUp_ret (x : α) (lo : Nat) : FillsUp Q f m start (.ret x : Prog τ α) lo x lo :=
  ⟨[], Prog.runs_ret x _, rfl, by simp⟩

theorem FillsUp.mem_eq {ws : List Write} (hstart : start ≤ lo) (hws : Consecutive ws lo hi)
    (hputs : ∀ w ∈ ws, w.Puts f ∧ Q w) :
    runWrites ws (fill f start lo m) = fill f start hi m := by
  have hle := hws.le
  refine runWrites_fill (fun w hw => (hputs w hw).1) fun b => ?_
  rw [hws.covers_iff]
  omega

theorem FillsUp.bind (hstart : start ≤ lo) (hp : FillsUp Q f m start p lo x mid)
    (hk : FillsUp Q f m start (k x) mid r hi) : FillsUp Q f m start (p >>= k) lo r hi := by
  obtain ⟨ws, hrun, hcons, hputs⟩ := hp
  obtain ⟨vs, hrun', hcons', hputs'⟩ := hk
  rw [← FillsUp.mem_eq hstart hcons hputs] at hrun'
  refine ⟨ws ++ vs, hrun.bind hrun', hcons.append hcons', fun w hw => ?_⟩
  rcases List.mem_append.mp hw with hw | hw
  · exact hputs w hw
  · exact hputs' w hw

theorem fillsUp_put {t : τ} {v : Nat} (hQ : Q (Write.ofNat lo (sizeof t) v))
    (hf : ∀ i < sizeof t, leByte v i = f (lo + i)) :
    FillsUp Q f m start (Prog.put t lo v) lo () (lo + sizeof t) := by
  refine ⟨_, Prog.runs_put t lo v _, consecutive_singleton _, fun w hw => ?_⟩
  obtain rfl := List.mem_singleton.mp hw
  exact ⟨Write.puts_ofNat hf, hQ⟩

/-- Reading a value and putting it at `lo`. -/
theorem fillsUp_copy {t : τ} {src : Nat} (hQ : ∀ v, Q (Write.ofNat lo (sizeof t) v))
    (hf : ∀ i < sizeof t, fill f start lo m (src + i) = f (lo + i)) :
    FillsUp Q f m start (Prog.copy t lo src) lo () (lo + sizeof t) := by
  have hget := Prog.runs_get t src (fill f start lo m)
  have hput : FillsUp Q f m start (Prog.put t lo (load (fill f start lo m) src (sizeof t))) lo ()
      (lo + sizeof t) :=
    fillsUp_put (hQ _) fun i hi => by rw [load, leByte_leValue hi, hf i hi]
  obtain ⟨ws, hrun, hcons, hputs⟩ := hput
  exact ⟨_, hget.bind hrun, hcons, hputs⟩

/-! ### Loops

A loop is described by what holds before iteration `k` and by the address `a k` up to which
the range is filled then. -/

section Loops

variable {σ : Type} {body : σ → Prog τ σ} {c : σ → Bool} {P : Nat → σ → Prop} {a : Nat → Nat}
  {n i fuel : Nat} {s : σ}
  (hbody : ∀ i s, i < n → P i s →
    ∃ s', P (i + 1) s' ∧ FillsUp Q f m start (body s) (a i) s' (a (i + 1)))
  (hstart : ∀ i, start ≤ a i)

include hbody hstart

theorem fillsUp_repeatTimes (hi : i ≤ n) (hs : P i s) :
    ∃ s', P n s' ∧ FillsUp Q f m start (Prog.repeatTimes body (n - i) s) (a i) s' (a n) := by
  induction hr : n - i generalizing i s with
  | zero =>
    obtain rfl : i = n := by omega
    exact ⟨s, hs, fillsUp_ret s _⟩
  | succ r ih =>
    obtain ⟨s1, hs1, hstep⟩ := hbody i s (by omega) hs
    obtain ⟨s', hs', hrest⟩ := ih (i := i + 1) (by omega) hs1 (by omega)
    exact ⟨s', hs', hstep.bind (hstart i) hrest⟩

variable (hc : ∀ i s, i ≤ n → P i s → (c s = true ↔ i < n))

include hc

theorem fillsUp_whileLoop (hi : i ≤ n) (hs : P i s) (hfuel : n < i + fuel) :
    ∃ s', P n s' ∧ FillsUp Q f m start (Prog.whileLoop c body fuel s) (a i) s' (a n) := by
  induction fuel generalizing i s with
  | zero => omega
  | succ fuel ih =>
    rw [Prog.whileLoop]
    rcases Nat.lt_or_ge i n with hlt | hge
    · obtain ⟨s1, hs1, hstep⟩ := hbody i s hlt hs
      obtain ⟨s', hs', hrest⟩ := ih (i := i + 1) hlt hs1 (by omega)
      refine ⟨s', hs', ?_⟩
      rw [if_pos ((hc i s hi hs).mpr hlt)]
      exact hstep.bind (hstart i) hrest
    · obtain rfl : i = n := by omega
      refine ⟨s, hs, ?_⟩
      rw [if_neg (by rw [hc i s hi hs]; omega)]
      exact fillsUp_ret s _

theorem fillsUp_doWhile (hi : i < n) (hs : P i s) (hfuel : n ≤ i + fuel) :
    ∃ s', P n s' ∧ FillsUp Q f m start (Prog.doWhile body c fuel s) (a i) s' (a n) := by
  induction fuel generalizing i s with
  | zero => omega
  | succ fuel ih =>
    obtain ⟨s1, hs1, hstep⟩ := hbody i s hi hs
    rcases Nat.lt_or_ge (i + 1) n with hlt | hge
    · obtain ⟨s', hs', hrest⟩ := ih (i := i + 1) hlt hs1 (by omega)
      refine ⟨s', hs', hstep.bind (hstart i) ?_⟩
      rw [if_pos ((hc (i + 1) s1 hi hs1).mpr hlt)]
      exact hrest
    · obtain rfl : n = i + 1 := by omega
      refine ⟨s1, hs1, hstep.bind (hstart i) ?_⟩
      rw [if_neg (by rw [hc (i + 1) s1 hi hs1]; omega)]
      exact fillsUp_ret s1 _

end Loops

/-- A program that fills a range, seen from outside. -/
theorem FillsUp.spec (h : FillsUp Q f m start p start x hi) :
    ∃ ws, p.Runs m x ws ∧ runWrites ws m = fill f start hi m ∧ Consecutive ws start hi ∧
      ∀ w ∈ ws, Q w := by
  obtain ⟨ws, hrun, hcons, hputs⟩ := h
  have hmem := FillsUp.mem_eq (m := m) (le_refl start) hcons hputs
  rw [fill_empty] at hrun hmem
  exact ⟨ws, hrun, hmem, hcons, fun w hw => (hputs w hw).2⟩

end Upwards

/-! ## Programs that fill a range downwards -/

section Downwards

variable {τ α β : Type} [Width τ] {stop mid : Nat} {p : Prog τ α} {k : α → Prog τ β} {x : α} {r : β}

/-- With `[hi, stop)` filled, the program returns `x` and fills `[lo, hi)` downwards. -/
def FillsDown (f : Nat → UInt8) (m : Mem) (stop : Nat) (p : Prog τ α) (hi : Nat) (x : α) (lo : Nat) :
    Prop :=
  ∃ ws, p.Runs (fill f hi stop m) x ws ∧ Consecutive ws.reverse lo hi ∧ ∀ w ∈ ws, w.Puts f

theorem fillsDown_ret (x : α) (hi : Nat) : FillsDown f m stop (.ret x : Prog τ α) hi x hi :=
  ⟨[], Prog.runs_ret x _, rfl, by simp⟩

theorem FillsDown.covers_iff {ws : List Write} (hws : Consecutive ws.reverse lo hi) :
    (∃ w ∈ ws, w.Covers b) ↔ lo ≤ b ∧ b < hi := by
  rw [← hws.covers_iff]
  simp

theorem FillsDown.mem_eq {ws : List Write} (hstop : hi ≤ stop) (hws : Consecutive ws.reverse lo hi)
    (hputs : ∀ w ∈ ws, w.Puts f) : runWrites ws (fill f hi stop m) = fill f lo stop m := by
  have hle := hws.le
  refine runWrites_fill hputs fun b => ?_
  rw [FillsDown.covers_iff hws]
  omega

theorem FillsDown.bind (hstop : hi ≤ stop) (hp : FillsDown f m stop p hi x mid)
    (hk : FillsDown f m stop (k x) mid r lo) : FillsDown f m stop (p >>= k) hi r lo := by
  obtain ⟨ws, hrun, hcons, hputs⟩ := hp
  obtain ⟨vs, hrun', hcons', hputs'⟩ := hk
  rw [← FillsDown.mem_eq hstop hcons hputs] at hrun'
  refine ⟨ws ++ vs, hrun.bind hrun', ?_, fun w hw => ?_⟩
  · rw [List.reverse_append]
    exact hcons'.append hcons
  · rcases List.mem_append.mp hw with hw | hw
    · exact hputs w hw
    · exact hputs' w hw

/-- Reading a value and putting it right below the filled part. -/
theorem fillsDown_copy {t : τ} {src : Nat} (hhi : lo + sizeof t = hi)
    (hf : ∀ i < sizeof t, fill f hi stop m (src + i) = f (lo + i)) :
    FillsDown f m stop (Prog.copy t lo src) hi () lo := by
  subst hhi
  have hget := Prog.runs_get t src (fill f (lo + sizeof t) stop m)
  refine ⟨_, hget.bind (Prog.runs_put t lo _ _), consecutive_singleton _, fun w hw => ?_⟩
  obtain rfl := List.mem_singleton.mp hw
  exact Write.puts_ofNat fun i hi => by rw [load, leByte_leValue hi, hf i hi]

/-- A loop over copies, described as for the upward direction. -/
theorem fillsDown_repeatTimes {σ : Type} {body : σ → Prog τ σ} {P : Nat → σ → Prop}
    {a : Nat → Nat} {n i : Nat} {s : σ}
    (hbody : ∀ i s, i < n → P i s →
      ∃ s', P (i + 1) s' ∧ FillsDown f m stop (body s) (a i) s' (a (i + 1)))
    (hstop : ∀ i, a i ≤ stop) (hi : i ≤ n) (hs : P i s) :
    ∃ s', P n s' ∧ FillsDown f m stop (Prog.repeatTimes body (n - i) s) (a i) s' (a n) := by
  induction hr : n - i generalizing i s with
  | zero =>
    obtain rfl : i = n := by omega
    exact ⟨s, hs, fillsDown_ret s _⟩
  | succ r ih =>
    obtain ⟨s1, hs1, hstep⟩ := hbody i s (by omega) hs
    obtain ⟨s', hs', hrest⟩ := ih (i := i + 1) (by omega) hs1 (by omega)
    exact ⟨s', hs', hstep.bind (hstop i) hrest⟩

theorem FillsDown.spec (h : FillsDown f m stop p stop x lo) :
    ∃ ws, p.Runs m x ws ∧ runWrites ws m = fill f lo stop m ∧
      ∀ b, (∃ w ∈ ws, w.Covers b) ↔ lo ≤ b ∧ b < stop := by
  obtain ⟨ws, hrun, hcons, hputs⟩ := h
  have hmem := FillsDown.mem_eq (m := m) (le_refl stop) hcons hputs
  rw [fill_empty] at hrun hmem
  exact ⟨ws, hrun, hmem, fun b => FillsDown.covers_iff hcons⟩

end Downwards

end Memory
