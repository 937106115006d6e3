-- SUMMARY: Mutexes a thread holds too long: across the unlocks of its own handler, and across attempts that are given up.
import LibSei.Tmi.LockHistory

/-!
# Mutexes held too long

Inside a transaction an unlock does nothing, so a handler that has unlocked a mutex still
holds it. An attempt that is given up does not release its mutexes either. The results here
say for which handlers, and for which attempts, this is noticed: a mutex is locked while it
is held, or is still held when it should be free.
-/

namespace LibSei

open Memory Control

/-! ## Deferred unlocks -/

/-- The lock operations of a handler that uses mutexes correctly when they are made as they
are called, starting with the mutexes `H`: it never locks a mutex it holds, unlocks only
what it holds, and holds nothing at the end. -/
def CorrectUse (H : Finset Nat) : List (LockOp × Int32) → Prop
  | [] => H = ∅
  | (.lock m, r) :: xs => m ∉ H ∧ CorrectUse (taking H m r) xs
  | (.trylock m, r) :: xs => CorrectUse (taking H m r) xs
  | (.unlock m, _) :: xs => m ∈ H ∧ CorrectUse (H.erase m) xs

/-- No mutex is locked after it was unlocked. -/
def NoLockAfterUnlock (xs : List (LockOp × Int32)) : Prop :=
  xs.Pairwise fun x y => ∀ m, x.1 = .unlock m → y.1 ≠ .lock m

section DeferredUnlocks

variable {H U : Finset Nat} {xs : List (LockOp × Int32)}

/-- The thread holds what the handler believes to hold, `H`, and what it has unlocked, `U`. -/
theorem CorrectUse.neverRelocks_iff (h : CorrectUse H xs) :
    NeverRelocks (H ∪ U) (lockCalls xs) ↔
      (∀ x ∈ xs, ∀ m ∈ U, x.1 ≠ .lock m) ∧ NoLockAfterUnlock xs := by
  induction xs generalizing H U with
  | nil => simp [lockCalls, NeverRelocks, NoLockAfterUnlock]
  | cons x xs ih =>
    obtain ⟨o, r⟩ := x
    rw [NoLockAfterUnlock, List.pairwise_cons]
    cases o with
    | lock m =>
      obtain ⟨hm, hrest⟩ := h
      have hcalls : lockCalls ((.lock m, r) :: xs) = .lock m r :: lockCalls xs := rfl
      rw [hcalls, NeverRelocks, LockCall.after, taking_union, ih hrest]
      simp only [NoLockAfterUnlock, LockCall.lock.injEq, and_imp, Finset.mem_union,
        List.forall_mem_cons]
      constructor
      · rintro ⟨hfree, hall, hpairwise⟩
        refine ⟨⟨fun m' hm' hlock => ?_, hall⟩, fun y _ m' hunlock => LockOp.noConfusion hunlock,
          hpairwise⟩
        cases hlock
        exact hfree m r rfl rfl (.inr hm')
      · rintro ⟨⟨hhead, hall⟩, _, hpairwise⟩
        refine ⟨fun m' _ heq _ => ?_, hall, hpairwise⟩
        subst heq
        exact not_or.mpr ⟨hm, fun hU => hhead m hU rfl⟩
    | trylock m =>
      have hcalls : lockCalls ((.trylock m, r) :: xs) = .trylock m r :: lockCalls xs := rfl
      rw [hcalls, NeverRelocks, LockCall.after, taking_union, ih h]
      simp [NoLockAfterUnlock]
    | unlock m =>
      obtain ⟨hm, hrest⟩ := h
      have hcalls : lockCalls ((.unlock m, r) :: xs) = lockCalls xs := rfl
      have hunion : H ∪ U = H.erase m ∪ insert m U := by
        rw [Finset.union_insert, ← Finset.insert_union, Finset.insert_erase hm]
      rw [hcalls, hunion, ih hrest]
      simp only [NoLockAfterUnlock, Finset.forall_mem_insert, List.forall_mem_cons,
        LockOp.unlock.injEq]
      constructor
      · rintro ⟨hall, hpairwise⟩
        refine ⟨⟨fun _ _ hlock => LockOp.noConfusion hlock, fun x hx => (hall x hx).2⟩, ?_, hpairwise⟩
        rintro y hy m' rfl
        exact (hall y hy).1
      · rintro ⟨⟨_, hall⟩, hhead, hpairwise⟩
        exact ⟨fun x hx => ⟨hhead x hx m rfl, hall x hx⟩, hpairwise⟩

variable {env : Env} {b : Build} {rbp n : Nat} {t0 t t' : Tmi}

/-- A handler that uses mutexes correctly is executed without recovery, up to any state `t` or
to the end of its commit. `pthread_mutex_lock` is never called on a mutex the thread holds
exactly when phase 0 locks no mutex that it has unlocked before. -/
theorem neverRelocks_deferred_iff (hbetween : t0.Between b n) (h : LockRun env b rbp t0 [] xs t)
    (hend : t' = t ∨ t.seiCommit env b = .ok (.committed, t'))
    (huse : CorrectUse t0.locks.held xs) :
    ∃ cs, t'.locks.calls = t0.locks.calls ++ cs ∧
      (NeverRelocks t0.locks.held cs ↔ NoLockAfterUnlock xs) := by
  have htracks := h.tracks hbetween
  have hiff : NeverRelocks t0.locks.held (lockCalls xs) ↔ NoLockAfterUnlock xs := by
    rw [← Finset.union_empty t0.locks.held, huse.neverRelocks_iff]
    simp
  rcases hend with rfl | hcommit
  · exact ⟨lockCalls xs, htracks.calls, hiff⟩
  · obtain ⟨zs, _, hcalls⟩ := htracks.committed hcommit
    refine ⟨_, hcalls, ?_⟩
    rw [neverRelocks_append, and_iff_left neverRelocks_unlock]
    exact hiff

/-- Two mutexes are taken and given back in phase 0. -/
theorem neverRelocks_deferred_nested :
    ∃ t, LockRun Env.plain (Build.twoWay true false) 0
        (Tmi.init (Build.twoWay true false) fun _ => 0) []
        [(.lock 8, 0), (.lock 16, 0), (.unlock 16, 0), (.unlock 8, 0)] t ∧
      NeverRelocks ∅ t.locks.calls := by
  obtain ⟨rs, t, hops⟩ : ∃ rs t, Tmi.ops Env.plain (Build.twoWay true false)
      [.lock (.lock 8) 0, .lock (.lock 16) 0, .lock (.unlock 16) 0, .lock (.unlock 8) 0]
      ((Tmi.init (Build.twoWay true false) fun _ => 0).seiBegin 0) = .ok (rs, t) := ⟨_, _, rfl⟩
  have h : LockRun Env.plain (Build.twoWay true false) 0
      (Tmi.init (Build.twoWay true false) fun _ => 0) []
      [(.lock 8, 0), (.lock 16, 0), (.unlock 16, 0), (.unlock 8, 0)] t := LockRun.begin.ops hops
  obtain ⟨cs, hcalls, hiff⟩ := neverRelocks_deferred_iff
    (Tmi.between_init (Build.twoWay true false) fun _ => 0) h (.inl rfl)
    ⟨by decide, by decide, by decide, by decide, by rw [CorrectUse]; decide⟩
  refine ⟨t, h, ?_⟩
  rw [hcalls]
  exact hiff.mpr (by simp [NoLockAfterUnlock])

/-- A mutex is taken, given back and taken again. It is still held, and a mutex that checks
for this returns `EDEADLK`. -/
theorem neverRelocks_deferred_again :
    ∃ t, LockRun Env.plain (Build.twoWay true false) 0
        (Tmi.init (Build.twoWay true false) fun _ => 0) []
        [(.lock 8, 0), (.unlock 8, 0), (.lock 8, 35)] t ∧
      CorrectUse ∅ [(.lock 8, 0), (.unlock 8, 0), (.lock 8, 35)] ∧
      t.locks.calls = [.lock 8 0, .lock 8 35] ∧ ¬ NeverRelocks ∅ t.locks.calls := by
  obtain ⟨rs, t, hops, hcalls⟩ : ∃ rs t, Tmi.ops Env.plain (Build.twoWay true false)
      [.lock (.lock 8) 0, .lock (.unlock 8) 0, .lock (.lock 8) 35]
      ((Tmi.init (Build.twoWay true false) fun _ => 0).seiBegin 0) = .ok (rs, t) ∧
      t.locks.calls = [.lock 8 0, .lock 8 35] := ⟨_, _, rfl, rfl⟩
  refine ⟨t, LockRun.begin.ops hops, ⟨by decide, by decide, by decide, ?_⟩, hcalls, ?_⟩
  · rw [CorrectUse]
    decide
  rw [hcalls]
  rintro ⟨_, hrelock, _⟩
  exact absurd (hrelock 8 35 rfl) (by decide)

end DeferredUnlocks

/-! ## Attempts given up -/

/-- The lock operations of a handler that takes a mutex at most once, starting with the mutexes
`H`: it does not ask for a mutex it holds or has taken. -/
def AcquiresOnce (H : Finset Nat) : List (LockOp × Int32) → Prop
  | [] => True
  | (.lock m, r) :: xs => m ∉ H ∧ AcquiresOnce (taking H m r) xs
  | (.trylock m, r) :: xs => m ∉ H ∧ AcquiresOnce (taking H m r) xs
  | (.unlock _, _) :: xs => AcquiresOnce H xs

/-- A transaction begun in `t0` and committed in `t'` has leaked no mutex: when a new attempt
starts, the mutexes of the attempt given up are free, no mutex is locked while it is held, and
in the end all mutexes taken in the transaction are free. -/
structure NoLeak (t0 : Tmi) (as : List Aborted) (xs : List (LockOp × Int32)) (t' : Tmi) : Prop where
  aborted : ∀ a ∈ as, ∀ m ∈ acquired a.ops, m ∉ heldAfter ∅ a.calls
  neverRelocks : ∃ cs, t'.locks.calls = t0.locks.calls ++ cs ∧ NeverRelocks t0.locks.held cs
  committed : ∀ m ∈ acquired (as.flatMap Aborted.ops ++ xs), m ∉ t'.locks.held

section Leaks

variable {H : Finset Nat} {as : List Aborted} {xs ys : List (LockOp × Int32)}

theorem AcquiresOnce.neverRelocks (h : AcquiresOnce H xs) : NeverRelocks H (lockCalls xs) := by
  induction xs generalizing H with
  | nil => trivial
  | cons x xs ih =>
    obtain ⟨o, r⟩ := x
    cases o with
    | lock m =>
      refine ⟨fun m' r' hcall => ?_, ih h.2⟩
      cases hcall
      exact h.1
    | trylock m => exact ⟨fun m' r' hcall => LockCall.noConfusion hcall, ih h.2⟩
    | unlock m => exact ih h

/-- Attempts that take no mutex leave the mutexes held as they are. -/
theorem neverRelocks_flatMap (honce : ∀ a ∈ as, AcquiresOnce H a.ops)
    (hnil : ∀ a ∈ as, acquired a.ops = []) :
    NeverRelocks H (lockCalls (as.flatMap Aborted.ops)) := by
  induction as with
  | nil => trivial
  | cons a as ih =>
    rw [List.forall_mem_cons] at honce hnil
    rw [List.flatMap_cons, lockCalls_append, neverRelocks_append, heldAfter_lockCalls_of_nil hnil.1]
    exact ⟨honce.1.neverRelocks, ih honce.2 hnil.2⟩

theorem acquired_eq_nil_of_subset (hsub : ys ⊆ as.flatMap Aborted.ops)
    (hnil : ∀ a ∈ as, acquired a.ops = []) : acquired ys = [] := by
  rw [acquired, List.filterMap_eq_nil_iff]
  intro x hx
  obtain ⟨y, hy, hxy⟩ := List.mem_filterMap.mp hx
  obtain ⟨a, ha, hya⟩ := List.mem_flatMap.mp (hsub hy)
  exact List.filterMap_eq_nil_iff.mp (hnil a ha) x (List.mem_filterMap.mpr ⟨y, hya, hxy⟩)

variable {env : Env} {b : Build} {rbp n : Nat} {t0 t t' : Tmi}

/-- A transaction of a handler that takes every mutex at most once is given up any number of
times, in any phase and in both ways, and then committed. It leaks no mutex exactly when no
attempt given up has taken one. -/
theorem noLeak_iff (hbetween : t0.Between b n) (h : LockRun env b rbp t0 as xs t)
    (hcommit : t.seiCommit env b = .ok (.committed, t'))
    (haborted : ∀ a ∈ as, AcquiresOnce t0.locks.held a.ops)
    (honce : AcquiresOnce t0.locks.held xs) :
    NoLeak t0 as xs t' ↔ ∀ a ∈ as, acquired a.ops = [] := by
  have htracks := h.tracks hbetween
  constructor
  · intro hleak a ha
    rw [List.eq_nil_iff_forall_not_mem]
    intro m hm
    exact hleak.aborted a ha m hm (htracks.aborted a ha m hm)
  · intro hnil
    obtain ⟨zs, hzs, hcalls⟩ := htracks.committed hcommit
    have hzs := acquired_eq_nil_of_subset hzs hnil
    have hops := acquired_eq_nil_of_subset (List.Subset.refl _) hnil
    rw [acquired_append, hzs, List.nil_append] at hcalls
    refine ⟨fun a ha m hm => ?_, ⟨_, hcalls, ?_⟩, fun m hm => ?_⟩
    · rw [hnil a ha] at hm
      exact absurd hm List.not_mem_nil
    · rw [neverRelocks_append, lockCalls_append, neverRelocks_append, heldAfter_lockCalls_of_nil hops]
      exact ⟨⟨neverRelocks_flatMap haborted hnil, honce.neverRelocks⟩, neverRelocks_unlock⟩
    · rw [acquired_append, hops, List.nil_append] at hm
      rw [LockState.held, hcalls, heldAfter_append, heldAfter_append, mem_heldAfter_unlock]
      exact fun hheld => hheld.2 hm

/-- A `SIGSEGV` arrives before anything is taken; the second attempt takes a mutex and
commits. -/
theorem noLeak_sigsegvAtBegin :
    ∃ t t', LockRun Env.plain (Build.twoWay true true) 0
        (Tmi.init (Build.twoWay true true) fun _ => 0) [⟨[], []⟩] [(.lock 8, 0)] t ∧
      t.seiCommit Env.plain (Build.twoWay true true) = .ok (.committed, t') ∧
      NoLeak (Tmi.init (Build.twoWay true true) fun _ => 0) [⟨[], []⟩] [(.lock 8, 0)] t' := by
  obtain ⟨t1, _, t2, t3, _, t, t', hsegv, hp1, hcalls1, hfirst, hswitch, hp3, hsecond, hcommit⟩ :
      ∃ t1 rs2 t2 t3 rs4 t t',
      ((Tmi.init (Build.twoWay true true) fun _ => 0).seiBegin 0).protectHandler Env.plain
        (Build.twoWay true true) = .ok t1 ∧ t1.sei.p = 0 ∧ t1.locks.calls = [] ∧
      Tmi.ops Env.plain (Build.twoWay true true) [.lock (.lock 8) 0] t1 = .ok (rs2, t2) ∧
      t2.seiCommit Env.plain (Build.twoWay true true) = .ok (.reexecute, t3) ∧ t3.sei.p = 1 ∧
      Tmi.ops Env.plain (Build.twoWay true true) [.lock (.lock 8) 0] t3 = .ok (rs4, t) ∧
      t.seiCommit Env.plain (Build.twoWay true true) = .ok (.committed, t') :=
    ⟨_, _, _, _, _, _, _, rfl, rfl, rfl, rfl, rfl, rfl, rfl, rfl⟩
  have h := ((LockRun.begin.sigsegv hsegv).ops hfirst).reexecute hswitch |>.ops hsecond
  rw [hcalls1, if_pos hp1, if_neg (show ¬ t3.sei.p = 0 by rw [hp3]; decide)] at h
  refine ⟨t, t', h, hcommit, ?_⟩
  exact (noLeak_iff (Tmi.between_init (Build.twoWay true true) fun _ => 0) h hcommit
    (fun a ha => by rw [List.mem_singleton.mp ha]; trivial) ⟨by decide, trivial⟩).mpr
    fun a ha => by rw [List.mem_singleton.mp ha]; rfl

/-- The first attempt takes a mutex, and its phases disagree. The second attempt cannot take the
mutex, which the thread still holds, and commits without releasing it. -/
theorem noLeak_afterRetry :
    ∃ t t', LockRun Env.plain (Build.twoWay true true) 0
        (Tmi.init (Build.twoWay true true) fun _ => 0)
        [⟨[(.lock 8, 0), (.unlock 8, 0)], [.lock 8 0]⟩] [(.lock 8, 35)] t ∧
      AcquiresOnce ∅ [(.lock 8, 0), (.unlock 8, 0)] ∧ AcquiresOnce ∅ [(.lock 8, 35)] ∧
      t.seiCommit Env.plain (Build.twoWay true true) = .ok (.committed, t') ∧
      t'.locks.calls = [.lock 8 0, .lock 8 35] ∧ t'.locks.held = {8} ∧
      ¬ NoLeak (Tmi.init (Build.twoWay true true) fun _ => 0)
        [⟨[(.lock 8, 0), (.unlock 8, 0)], [.lock 8 0]⟩] [(.lock 8, 35)] t' := by
  obtain ⟨_, t1, t2, _, t3, t4, _, t5, t6, _, t, t', hfirst, hswitch, hp2, hfault, hretry, hp4, hcalls4,
      hagain, hswitch', hp6, hsecond, hcommit, hcalls⟩ :
      ∃ rs1 t1 t2 rs3 t3 t4 rs5 t5 t6 rs7 t t',
      Tmi.ops Env.plain (Build.twoWay true true)
        [.lock (.lock 8) 0, .write 0 .uint8 64 1, .lock (.unlock 8) 0]
        ((Tmi.init (Build.twoWay true true) fun _ => 0).seiBegin 0) = .ok (rs1, t1) ∧
      t1.seiCommit Env.plain (Build.twoWay true true) = .ok (.reexecute, t2) ∧ t2.sei.p = 1 ∧
      Tmi.ops Env.plain (Build.twoWay true true)
        [.lock (.lock 8) 0, .write 0 .uint8 64 2, .lock (.unlock 8) 0] t2 = .ok (rs3, t3) ∧
      t3.seiCommit Env.plain (Build.twoWay true true) = .ok (.retry, t4) ∧ t4.sei.p = 0 ∧
      t4.locks.calls = [.lock 8 0] ∧
      Tmi.ops Env.plain (Build.twoWay true true) [.lock (.lock 8) 35, .write 0 .uint8 64 1] t4 =
        .ok (rs5, t5) ∧
      t5.seiCommit Env.plain (Build.twoWay true true) = .ok (.reexecute, t6) ∧ t6.sei.p = 1 ∧
      Tmi.ops Env.plain (Build.twoWay true true) [.lock (.lock 8) 35, .write 0 .uint8 64 1] t6 =
        .ok (rs7, t) ∧
      t.seiCommit Env.plain (Build.twoWay true true) = .ok (.committed, t') ∧
      t'.locks.calls = [.lock 8 0, .lock 8 35] :=
    ⟨_, _, _, _, _, _, _, _, _, _, _, _, rfl, rfl, rfl, rfl, rfl, rfl, rfl, rfl, rfl, rfl, rfl, rfl, rfl⟩
  have h1 := (LockRun.begin.ops hfirst).reexecute hswitch |>.ops hfault |>.retry hretry
  have h := (h1.ops hagain).reexecute hswitch' |>.ops hsecond
  rw [hcalls4, if_pos hp4, if_neg (show ¬ t6.sei.p = 0 by rw [hp6]; decide),
    if_neg (show ¬ t2.sei.p = 0 by rw [hp2]; decide)] at h
  have hheld : t'.locks.held = {8} := by
    rw [LockState.held, hcalls]
    decide
  refine ⟨t, t', h, ⟨by decide, trivial⟩, ⟨by decide, trivial⟩, hcommit, hcalls, hheld, ?_⟩
  intro hleak
  have hfree := hleak.committed 8 (by decide)
  rw [hheld] at hfree
  exact hfree (by decide)

end Leaks

end LibSei
