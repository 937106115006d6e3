-- SUMMARY: Safety of the traversal barrier: when a positive answer of `tbar_check` means that the traversals seen running are over.
import LibSei.Traversal.Tbar

/-!
# Safety of the traversal barrier

A thread that has left a traversal may reuse what the traversal was reading once `tbar_check`
answers 1: every thread that was inside a traversal then should have left it. The results
here follow one snapshot through any interleaving of the threads.
-/

namespace LibSei

open Control

namespace Tbar

/-- The values of a counter that look larger than they are once they have gone through an
`int`: negative as an `int`, and with more than the sign bits above. -/
def Overtakes (c : UInt64) : Prop := 2 ^ 31 ≤ c.toNat % 2 ^ 32 ∧ c.toNat < 2 ^ 64 - 2 ^ 31

section Barrier

variable {b : Build} {s s1 s2 s' : Tbar} {es : List Event} {e : Event} {t u i n : Nat} {c : UInt64}

theorem lt_uint64OfInt_iff : c < uint64OfInt (intOfCount c) ↔ Overtakes c := by
  have hlt : c.toNat < 2 ^ 64 := c.toNat_lt
  rw [UInt64.lt_iff_toNat_lt, toNat_uint64OfInt, Overtakes]
  split <;> omega

/-! ## One operation -/

theorem register_items (ht : t < s.me) : s.register.items t = s.items t :=
  Function.update_of_ne (by omega) _ _

theorem enter_eq_ok (h : s.enter b t = .ok s') :
    s' = { s with count := Function.update s.count t (s.count t + 1) } := by
  simp only [enter, bind_eq_ok, pure_eq_ok, Except.ok.injEq] at h
  obtain ⟨_, _, _, _, rfl⟩ := h
  rfl

theorem leave_eq_ok (h : s.leave b t = .ok s') :
    s'.me = s.me ∧ s'.maxThreads = s.maxThreads ∧ s.me ≤ s.maxThreads ∧
      s'.count = Function.update s.count t (s.count t + 1) ∧
      (∀ u, u ≠ t → s'.items u = s.items u) ∧
      ∀ i < s.me, s'.items t i = ⟨s'.count i, 0⟩ := by
  simp only [leave, bind_eq_ok, pure_eq_ok, Except.ok.injEq] at h
  obtain ⟨_, _, _, _, _, hbounds, rfl⟩ := h
  refine ⟨rfl, rfl, inBounds_eq_ok.mp hbounds, rfl, fun u hu => Function.update_of_ne hu _ _,
    fun i hi => ?_⟩
  simp only [Function.update_self, if_pos hi]

theorem check_eq_ok {r : Bool} (h : s.check t = .ok (r, s')) :
    s'.me = s.me ∧ s'.count = s.count ∧ (∀ u, u ≠ t → s'.items u = s.items u) ∧
      (∀ i < s.me, s'.items t i = checkItem (s.count i) (s.items t i)) ∧
      (r = true ↔ ∀ i < s.me, (s'.items t i).mark ≠ 0) := by
  simp only [check, bind_eq_ok, pure_eq_ok, Except.ok.injEq, Prod.mk.injEq] at h
  obtain ⟨_, _, rfl, rfl⟩ := h
  refine ⟨rfl, rfl, fun u hu => Function.update_of_ne hu _ _, fun i hi => ?_, ?_⟩
  · simp only [Function.update_self, if_pos hi]
  · simp only [Function.update_self, List.all_eq_true, List.mem_range, decide_eq_true_eq]

theorem checkItem_count (count : UInt64) (it : TbarItem) : (checkItem count it).count = it.count := by
  unfold checkItem
  split
  · rfl
  split
  · rfl
  split <;> rfl

/-- What a mark of an odd snapshot says. -/
theorem mark_checkItem {count : UInt64} {it : TbarItem} (hodd : it.count % 2 = 1)
    (h : (checkItem count it).mark ≠ 0) :
    it.mark ≠ 0 ∨ it.count < uint64OfInt (intOfCount count) := by
  unfold checkItem at h
  split at h
  · next hmark => exact .inl hmark
  rw [if_neg (not_even_of_odd hodd)] at h
  split at h
  · next hlt => exact .inr hlt
  · exact .inl h

/-! ## After a snapshot -/

/-- What is known in `s` about the snapshot thread `t` took when it left, in `s1`, if the
operations `es` have been made since. -/
structure Since (s1 : Tbar) (t : Nat) (es : List Event) (s : Tbar) : Prop where
  me : s1.me ≤ s.me
  inside : ∀ i, s1.count i % 2 = 1 → .leave i ∉ es → s.count i = s1.count i
  snapshot : ∀ i < s1.me, (s.items t i).count = s1.count i
  marked : ∀ i < s1.me, s1.count i % 2 = 1 → (s.items t i).mark ≠ 0 →
    .leave i ∈ es ∨ Overtakes (s1.count i)
  unmarked : ∀ i < s1.me, (s1.count i).toNat = 2 ^ 64 - 1 → (s.items t i).mark = 0

theorem since_leave (h : s.leave b t = .ok s1) : Since s1 t [] s1 := by
  obtain ⟨hme, _, _, _, _, hitems⟩ := leave_eq_ok h
  rw [← hme] at hitems
  refine ⟨le_refl _, fun _ _ _ => rfl, fun i hi => by rw [hitems i hi], fun i hi _ hmark => ?_,
    fun i hi _ => by rw [hitems i hi]⟩
  rw [hitems i hi] at hmark
  exact absurd rfl hmark

/-- An operation that leaves the snapshot alone. -/
theorem Since.same (h : Since s1 t es s) (hme : s.me ≤ s'.me) (hitems : s'.items t = s.items t)
    (hinside : ∀ i, s1.count i % 2 = 1 → .leave i ∉ es ++ [e] → s'.count i = s.count i) :
    Since s1 t (es ++ [e]) s' := by
  refine ⟨h.me.trans hme, fun i hodd hleave => ?_, ?_, fun i hi hodd hmark => ?_, ?_⟩
  · rw [hinside i hodd hleave, h.inside i hodd fun hmem => hleave (List.mem_append_left _ hmem)]
  · rw [hitems]
    exact h.snapshot
  · rw [hitems] at hmark
    exact (h.marked i hi hodd hmark).imp_left (List.mem_append_left _)
  · rw [hitems]
    exact h.unmarked

theorem Since.check {r : Bool} (h : Since s1 t es s) (hrun : s.check t = .ok (r, s')) :
    Since s1 t (es ++ [.check t]) s' := by
  obtain ⟨hme, hcount, _, hitems, _⟩ := check_eq_ok hrun
  have hle := h.me
  refine ⟨by omega, fun i hodd hleave => ?_, fun i hi => ?_, fun i hi hodd hmark => ?_,
    fun i hi hmax => ?_⟩
  · rw [hcount]
    exact h.inside i hodd fun hmem => hleave (List.mem_append_left _ hmem)
  · rw [hitems i (by omega), checkItem_count, h.snapshot i hi]
  · rw [hitems i (by omega)] at hmark
    rcases mark_checkItem (by rwa [h.snapshot i hi]) hmark with hmark | hlt
    · exact (h.marked i hi hodd hmark).imp_left (List.mem_append_left _)
    · by_cases hleave : .leave i ∈ es
      · exact .inl (List.mem_append_left _ hleave)
      · rw [h.snapshot i hi, h.inside i hodd hleave, lt_uint64OfInt_iff] at hlt
        exact .inr hlt
  · have hodd : s1.count i % 2 = 1 := by
      rw [odd_iff, hmax]
      rfl
    by_contra hmark
    rw [hitems i (by omega)] at hmark
    rcases mark_checkItem (by rwa [h.snapshot i hi]) hmark with hmark | hlt
    · exact hmark (h.unmarked i hi hmax)
    · rw [h.snapshot i hi, UInt64.lt_iff_toNat_lt, hmax] at hlt
      have := (uint64OfInt (intOfCount (s.count i))).toNat_lt
      omega

theorem Since.step (h : Since s1 t es s) (ht : t < s1.me) (hstep : Step b s e s')
    (hleave : e ≠ .leave t) : Since s1 t (es ++ [e]) s' := by
  have hme := h.me
  cases hstep with
  | register => exact h.same (Nat.le_succ _) (register_items (by omega)) fun _ _ _ => rfl
  | @enter u _ hu hout hrun =>
    obtain rfl := enter_eq_ok hrun
    refine h.same (le_refl _) rfl fun i hodd hnone => ?_
    -- a thread that was inside and has not left cannot enter
    refine Function.update_of_ne ?_ _ _
    rintro rfl
    rw [h.inside i hodd fun hmem => hnone (List.mem_append_left _ hmem)] at hout
    exact not_even_of_odd hodd hout
  | @leave u _ hu hin hrun =>
    obtain ⟨hme', _, _, hcount, hitems, _⟩ := leave_eq_ok hrun
    refine h.same (le_of_eq hme'.symm) (hitems t fun htu => hleave (by rw [htu])) fun i _ hnone => ?_
    rw [hcount]
    refine Function.update_of_ne ?_ _ _
    rintro rfl
    exact hnone (List.mem_append_right _ List.mem_cons_self)
  | @check u r _ hu hrun =>
    by_cases htu : u = t
    · subst htu
      exact h.check hrun
    · obtain ⟨hme', hcount, hitems, _⟩ := check_eq_ok hrun
      exact h.same (le_of_eq hme'.symm) (hitems t (Ne.symm htu)) fun i _ _ => by rw [hcount]

theorem Since.run (h : Since s1 t [] s1) (ht : t < s1.me) (hrun : Run b s1 es s)
    (hleave : .leave t ∉ es) : Since s1 t es s := by
  induction hrun with
  | nil => exact h
  | @snoc es s e s' _ hstep ih =>
    refine (ih fun hmem => hleave (List.mem_append_left _ hmem)).step ht hstep ?_
    rintro rfl
    exact hleave (List.mem_append_right _ List.mem_cons_self)

/-! ## Threads that go on -/

/-- The operations of a thread that only enters and leaves traversals take its counter to any
value and change nothing for the others. -/
theorem exists_advance (hu : u < s.me) (hle : s.me ≤ s.maxThreads) (n : Nat) :
    ∃ es s', Run b s es s' ∧ (∀ v, .leave v ∈ es → v = u) ∧ s'.me = s.me ∧
      s'.maxThreads = s.maxThreads ∧ s'.count = Function.update s.count u (s.count u + UInt64.ofNat n) ∧
      ∀ v, v ≠ u → s'.items v = s.items v := by
  induction n with
  | zero => exact ⟨[], s, .nil s, by simp, rfl, rfl, by simp, fun _ _ => rfl⟩
  | succ n ih =>
    obtain ⟨es, s', hrun, hleaves, hme, hmax, hcount, hitems⟩ := ih
    have hbounds : u < s'.maxThreads := by omega
    have hnext : Function.update s'.count u (s'.count u + 1) =
        Function.update s.count u (s.count u + UInt64.ofNat (n + 1)) := by
      rw [hcount, Function.update_idem, Function.update_self, UInt64.add_assoc]
      simp
    rcases even_or_odd (s'.count u) with heven | hodd
    · have henter : s'.enter b u = .ok
          { s' with count := Function.update s'.count u (s'.count u + 1) } := by
        rw [enter, inBounds_of hbounds, ok_bind, Build.assert_of heven, ok_bind]
        rfl
      refine ⟨_, _, hrun.snoc (.enter (by omega) heven henter), fun v hv => ?_, hme, hmax, hnext, hitems⟩
      simp only [List.mem_append, List.mem_singleton, reduceCtorEq, or_false] at hv
      exact hleaves v hv
    · have hregistered : s'.me ≤ s'.maxThreads := by omega
      obtain ⟨s'', hleave⟩ : ∃ s'', s'.leave b u = .ok s'' := by
        rw [leave, inBounds_of hbounds, ok_bind, Build.assert_of hodd, ok_bind]
        simp only [inBounds_of hregistered, ok_bind]
        exact ⟨_, rfl⟩
      obtain ⟨hme', hmax', _, hcount', hitems', _⟩ := leave_eq_ok hleave
      refine ⟨_, s'', hrun.snoc (.leave (by omega) hodd hleave), fun v hv => ?_, by omega, by omega,
        hcount'.trans hnext, fun v hv => (hitems' v hv).trans (hitems v hv)⟩
      simp only [List.mem_append, List.mem_singleton, Event.leave.injEq] at hv
      exact hv.elim (hleaves v) id

theorem exists_reach (hu : u < s.me) (hle : s.me ≤ s.maxThreads) (c : UInt64) :
    ∃ es s', Run b s es s' ∧ (∀ v, .leave v ∈ es → v = u) ∧ s'.me = s.me ∧
      s'.maxThreads = s.maxThreads ∧ s'.count = Function.update s.count u c ∧
      ∀ v, v ≠ u → s'.items v = s.items v := by
  obtain ⟨es, s', hrun, hleaves, hme, hmax, hcount, hitems⟩ :=
    exists_advance (b := b) hu hle (c - s.count u).toNat
  refine ⟨es, s', hrun, hleaves, hme, hmax, ?_, hitems⟩
  rw [hcount, UInt64.ofNat_toNat, UInt64.add_comm, UInt64.sub_add_cancel]

/-- The counters when all threads below `n` that were inside, but thread `i`, have gone on to
the largest even value. -/
def goneOn (s : Tbar) (i n j : Nat) : UInt64 :=
  if j < n ∧ j ≠ i ∧ s.count j % 2 = 1 then UInt64.ofNat (2 ^ 64 - 2) else s.count j

theorem exists_goneOn (hle : s.me ≤ s.maxThreads) (heven : s.count t % 2 = 0) (hn : n ≤ s.me) :
    ∃ es s', Run b s es s' ∧ .leave t ∉ es ∧ .leave i ∉ es ∧ s'.me = s.me ∧
      s'.maxThreads = s.maxThreads ∧ s'.count = s.goneOn i n ∧ s'.items t = s.items t := by
  induction n with
  | zero => exact ⟨[], s, .nil s, by simp, by simp, rfl, rfl, by funext j; simp [goneOn], rfl⟩
  | succ n ih =>
    obtain ⟨es, s', hrun, ht, hi, hme, hmax, hcount, hitems⟩ := ih (by omega)
    by_cases hgo : n ≠ i ∧ s.count n % 2 = 1
    · obtain ⟨es', s'', hrun', hleaves, hme', hmax', hcount', hitems'⟩ :=
        exists_reach (b := b) (s := s') (u := n) (by omega) (by omega) (UInt64.ofNat (2 ^ 64 - 2))
      have htn : t ≠ n := by
        rintro rfl
        exact not_even_of_odd hgo.2 heven
      refine ⟨es ++ es', s'', hrun.append hrun', ?_, ?_, by omega, by omega, ?_,
        (hitems' t htn).trans hitems⟩
      · exact fun hmem => (List.mem_append.mp hmem).elim ht fun hmem => htn (hleaves t hmem)
      · exact fun hmem => (List.mem_append.mp hmem).elim hi fun hmem => hgo.1 (hleaves i hmem).symm
      · funext j
        rw [hcount', hcount]
        by_cases hj : j = n
        · subst hj
          simp [goneOn, hgo.1, hgo.2]
        · rw [Function.update_of_ne hj]
          simp only [goneOn, show j < n + 1 ↔ j < n by omega]
    · refine ⟨es, s', hrun, ht, hi, hme, hmax, ?_, hitems⟩
      rw [hcount]
      funext j
      by_cases hj : j = n
      · subst hj
        simp only [goneOn, Nat.lt_irrefl, false_and, if_false, Nat.lt_succ_self, true_and, if_neg hgo]
      · simp only [goneOn, show j < n + 1 ↔ j < n by omega]

/-- A check that finds every item marked already or ready to be marked answers 1. -/
theorem check_eq_true (hle : s.me ≤ s.maxThreads)
    (h : ∀ i < s.me, (s.items t i).count % 2 = 0 ∨
      (s.items t i).count < uint64OfInt (intOfCount (s.count i))) :
    ∃ s', s.check t = .ok (true, s') := by
  have hone : (1 : UInt64) ≠ 0 := by decide
  have hmark : ∀ i < s.me, (checkItem (s.count i) (s.items t i)).mark ≠ 0 := by
    intro i hi
    unfold checkItem
    split
    · next hmark => exact hmark
    split
    · exact hone
    · next hodd =>
      rw [if_pos ((h i hi).resolve_left hodd)]
      exact hone
  obtain ⟨r, s', hrun⟩ : ∃ r s', s.check t = .ok (r, s') := by
    rw [check, inBounds_of hle, ok_bind]
    exact ⟨_, _, rfl⟩
  obtain ⟨_, _, _, hitems, hr⟩ := check_eq_ok hrun
  rw [hr.mpr fun i hi => by rw [hitems i hi]; exact hmark i hi] at hrun
  exact ⟨s', hrun⟩

/-- Thread `t` leaves a traversal, in `s1`. A positive answer of a later check, whatever the
threads did in between, means that all threads that were inside have left, exactly when no
counter then had a value that overtakes itself, or one of them had its last value, which no
answer is positive for. -/
theorem check_safe_iff (hleave : Step b s (.leave t) s1) :
    (∀ es s2 s', Run b s1 es s2 → .leave t ∉ es → s2.check t = .ok (true, s') →
      ∀ i < s1.me, s1.count i % 2 = 1 → .leave i ∈ es) ↔
    (∀ i < s1.me, s1.count i % 2 = 1 → ¬ Overtakes (s1.count i)) ∨
      ∃ j < s1.me, (s1.count j).toNat = 2 ^ 64 - 1 := by
  cases hleave with
  | leave ht hin hrun =>
  obtain ⟨hme, hmax, hle, hcount, _, hitems⟩ := leave_eq_ok hrun
  have hstart := since_leave hrun
  constructor
  · intro hsafe
    by_contra hcond
    rw [not_or] at hcond
    push Not at hcond
    obtain ⟨⟨i, hi, hodd, hover⟩, hlast⟩ := hcond
    have heven : s1.count t % 2 = 0 := by
      rw [hcount, Function.update_self]
      exact even_add_one hin
    -- everyone else goes on, `i` stays inside
    obtain ⟨es, s2, hgo, ht', hi', hme', hmax', hcount', hitems'⟩ :=
      exists_goneOn (b := b) (i := i) (by omega) heven (le_refl s1.me)
    obtain ⟨s', hcheck⟩ : ∃ s', s2.check t = .ok (true, s') := by
      refine check_eq_true (by omega) fun j hj => ?_
      rw [hitems', hitems j (by omega), hcount']
      rcases even_or_odd (s1.count j) with hev | hod
      · exact .inl hev
      · refine .inr ?_
        by_cases hji : j = i
        · subst hji
          rw [goneOn, if_neg fun h => h.2.1 rfl, lt_uint64OfInt_iff]
          exact hover
        · rw [goneOn, if_pos ⟨by omega, hji, hod⟩, UInt64.lt_iff_toNat_lt, toNat_uint64OfInt]
          have hne := hlast j (by omega)
          have hlt := (s1.count j).toNat_lt
          rw [odd_iff] at hod
          have hvalue : (UInt64.ofNat (2 ^ 64 - 2)).toNat = 2 ^ 64 - 2 := by decide
          rw [hvalue]
          norm_num
          omega
    exact hi' (hsafe es s2 s' hgo ht' hcheck i hi hodd)
  · intro hcond es s2 s' hgo ht' hcheck i hi hodd
    have hsince := hstart.run (by omega) hgo ht'
    have hafter := hsince.check hcheck
    obtain ⟨hme', _, _, _, hr⟩ := check_eq_ok hcheck
    have hmarks := hr.mp rfl
    have hle' := hsince.me
    rcases hcond with hnone | ⟨j, hj, hlast⟩
    · rcases hafter.marked i hi hodd (hmarks i (by omega)) with hmem | hover
      · simpa using hmem
      · exact absurd hover (hnone i hi hodd)
    · exact absurd (hafter.unmarked j hj hlast) (hmarks j (by omega))

/-! ## Two threads -/

/-- Of two threads, thread 0 leaves its first traversal when the counter of thread 1 is `c`. -/
theorem exists_leave_zero (b : Build) (c : UInt64) :
    ∃ es s s1, Run b (init 32) es s ∧ Step b s (.leave 0) s1 ∧ s1.me = 2 ∧ s1.maxThreads = 32 ∧
      s1.count 0 = 2 ∧ s1.count 1 = c ∧ ∀ i < 2, s1.items 0 i = ⟨s1.count i, 0⟩ := by
  have hregistered : Run b (init 32) [.register, .register] (init 32).register.register :=
    .snoc (.snoc (.nil _) (.register _)) (.register _)
  obtain ⟨es, s, hone, _, hme, hmax, hcount, _⟩ :=
    exists_reach (b := b) (s := (init 32).register.register) (u := 1) (by decide) (by decide) c
  have hme : s.me = 2 := hme
  have hmax : s.maxThreads = 32 := hmax
  obtain ⟨es', s', hzero, _, hme', hmax', hcount', _⟩ :=
    exists_reach (b := b) (s := s) (u := 0) (by omega) (by omega) 1
  rw [hcount] at hcount'
  have hodd : s'.count 0 % 2 = 1 := by
    rw [hcount', Function.update_self]
    rfl
  obtain ⟨s1, hleave⟩ : ∃ s1, s'.leave b 0 = .ok s1 := by
    have hbounds : 0 < s'.maxThreads := by omega
    have hle : s'.me ≤ s'.maxThreads := by omega
    rw [leave, inBounds_of hbounds, ok_bind, Build.assert_of hodd, ok_bind]
    simp only [inBounds_of hle, ok_bind]
    exact ⟨_, rfl⟩
  obtain ⟨hme1, hmax1, _, hcount1, _, hitems⟩ := leave_eq_ok hleave
  refine ⟨_, s', s1, (hregistered.append hone).append hzero, .leave (by omega) hodd hleave, by omega,
    by omega, ?_, ?_, fun i hi => hitems i (by omega)⟩
  · rw [hcount1, Function.update_self, hcount', Function.update_self]
    rfl
  · rw [hcount1, hcount', Function.update_of_ne one_ne_zero, Function.update_of_ne one_ne_zero,
      Function.update_self]

/-- Thread 0 leaves while thread 1 is in its first traversal. -/
theorem check_safe_firstTraversal :
    ∃ es s s1, Run (Build.twoWay false false) (init 32) es s ∧
      Step (Build.twoWay false false) s (.leave 0) s1 ∧ s1.count 1 = 1 ∧
      ∀ es s2 s', Run (Build.twoWay false false) s1 es s2 → .leave 0 ∉ es →
        s2.check 0 = .ok (true, s') → ∀ i < s1.me, s1.count i % 2 = 1 → .leave i ∈ es := by
  obtain ⟨es, s, s1, hrun, hleave, hme, _, hzero, hone, _⟩ :=
    exists_leave_zero (Build.twoWay false false) 1
  refine ⟨es, s, s1, hrun, hleave, hone, (check_safe_iff hleave).mpr (.inl fun i hi _ => ?_)⟩
  have hcases : i = 0 ∨ i = 1 := by omega
  rcases hcases with rfl | rfl
  · rw [hzero, Overtakes]
    decide
  · rw [hone, Overtakes]
    decide

/-- Thread 0 leaves while thread 1, after 2^31 + 1 operations, is in a traversal. The check
made right away answers 1. -/
theorem check_unsafe_longRun :
    ∃ es s s1 s', Run (Build.twoWay false false) (init 32) es s ∧
      Step (Build.twoWay false false) s (.leave 0) s1 ∧ 1 < s1.me ∧ s1.count 1 % 2 = 1 ∧
      (s1.count 1).toNat = 2 ^ 31 + 1 ∧ s1.check 0 = .ok (true, s') := by
  obtain ⟨es, s, s1, hrun, hleave, hme, hmax, hzero, hone, hitems⟩ :=
    exists_leave_zero (Build.twoWay false false) (UInt64.ofNat (2 ^ 31 + 1))
  obtain ⟨s', hcheck⟩ : ∃ s', s1.check 0 = .ok (true, s') := by
    refine check_eq_true (by omega) fun i hi => ?_
    rw [hitems i (by omega)]
    have hcases : i = 0 ∨ i = 1 := by omega
    rcases hcases with rfl | rfl
    · exact .inl (by rw [hzero]; rfl)
    · exact .inr (by rw [hone]; decide)
  exact ⟨es, s, s1, s', hrun, hleave, by omega, by rw [hone]; rfl, by rw [hone]; rfl, hcheck⟩

end Barrier

end Tbar

end LibSei
