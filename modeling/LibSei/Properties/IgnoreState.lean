-- SUMMARY: Which calls decide whether a write is logged when several threads make ignore calls.
import LibSei.Tmi.Process

/-!
# The ignore state of several threads

A write is logged unless the ignore state says otherwise. This state exists once per
process: a call of one thread is in force for all, and the end of a phase of any thread
resets it. The results here say which calls are in force at a write and compare them with
the calls the writing thread itself has made in its phase.
-/

namespace LibSei

open Memory Control

/-! ## Ignore calls -/

/-- What changes an ignore state: the start of a phase, the interface functions, and an
allocation of `size` bytes that returned `r`. -/
inductive IgnoreCall where
  | reset
  | ignore (v : Int)
  | ignoreAll (v : Nat)
  | ignoreAddr (start stop : Nat)
  | malloc (r size : Nat)
  deriving DecidableEq, Repr

/-- The calls an operation of a thread makes. Outside transactions ranges are not added. -/
def Tmi.ignoreCalls (env : Env) (b : Build) (t : Tmi) : Op → List IgnoreCall
  | .ignore v => [.ignore v]
  | .ignoreAll v => [.ignoreAll v]
  | .ignoreAddr start stop => if t.sei.p = -1 then [] else [.ignoreAddr start stop]
  | .malloc size =>
      match t.itmMalloc env b size with
      | .ok (r, _) => if t.sei.p = -1 then [] else [.malloc r size]
      | .error _ => []
  | _ => []

/-- What a sequence of calls says: the last flags and the ranges since the last reset. -/
@[ext] structure IgnoreView where
  flag : Int
  all : Nat
  ranges : List (Nat × Nat)

namespace IgnoreView

def init : IgnoreView := ⟨0, 0, []⟩

def step (v : IgnoreView) : IgnoreCall → IgnoreView
  | .reset => { v with flag := 0, ranges := [] }
  | .ignore x => { v with flag := x }
  | .ignoreAll x => { v with all := x }
  | .ignoreAddr start stop => { v with ranges := v.ranges ++ [(start, stop)] }
  | .malloc r size => if v.all = 0 then v else { v with ranges := v.ranges ++ [(r, r + size)] }

def steps (v : IgnoreView) (cs : List IgnoreCall) : IgnoreView := cs.foldl step v

/-- The address is ignored. -/
def Ignores (v : IgnoreView) (ptr : Nat) : Prop :=
  v.flag ≠ 0 ∨ ∃ r ∈ v.ranges, r.1 ≤ ptr ∧ ptr ≤ r.2

instance (v : IgnoreView) (ptr : Nat) : Decidable (v.Ignores ptr) :=
  inferInstanceAs (Decidable (_ ∨ ∃ r ∈ v.ranges, _))

theorem steps_append (v : IgnoreView) (cs ds : List IgnoreCall) :
    v.steps (cs ++ ds) = (v.steps cs).steps ds := List.foldl_append

end IgnoreView

/-! ## The ignore state and what it says -/

/-- The ignore state says the same as the view. -/
structure Ignore.Shows (g : Ignore) (v : IgnoreView) : Prop where
  flag : g.writeDisable = v.flag
  all : g.allf = v.all
  covers : ∀ ptr, g.covers ptr = true ↔ ∃ r ∈ v.ranges, r.1 ≤ ptr ∧ ptr ≤ r.2

section Shows

variable {env : Env} {b : Build} {g g' : Ignore} {v : IgnoreView} {t t' : Tmi} {start stop : Nat}

theorem Ignore.shows_init : Ignore.init.Shows IgnoreView.init :=
  ⟨rfl, rfl, fun ptr => by simp [Ignore.covers, Ignore.init, IgnoreView.init]⟩

theorem Ignore.Shows.reset (h : g.Shows v) : g.reset.Shows (v.step .reset) :=
  ⟨rfl, h.all, fun ptr => by simp [Ignore.covers, Ignore.reset, IgnoreView.step]⟩

/-- `__sei_ignore_addr` adds a range, inside a transaction. -/
theorem Tmi.seiIgnoreAddr_shows (hp : t.sei.p ≠ -1) (h : t.seiIgnoreAddr b start stop = .ok t')
    (hshows : t.ignore.Shows v) : t'.ignore.Shows (v.step (.ignoreAddr start stop)) := by
  have hranges : ∀ ptr, (∃ r ∈ v.ranges ++ [(start, stop)], r.1 ≤ ptr ∧ ptr ≤ r.2) ↔
      t.ignore.covers ptr = true ∨ start ≤ ptr ∧ ptr ≤ stop := by
    intro ptr
    rw [hshows.covers]
    simp [or_and_right, exists_or]
  rw [Tmi.seiIgnoreAddr, if_neg hp] at h
  split at h
  · next hlisted =>
    cases h
    refine ⟨hshows.flag, hshows.all, fun ptr => ?_⟩
    rw [IgnoreView.step, hranges, or_iff_left_of_imp fun hcov => Ignore.covers_of_listed hlisted hcov]
  · rw [bind_eq_ok] at h
    obtain ⟨g, happend, ht⟩ := h
    cases ht
    have hframe : g.writeDisable = t.ignore.writeDisable ∧ g.allf = t.ignore.allf := by
      simp only [Ignore.append, bind_eq_ok, pure_eq_ok, Except.ok.injEq] at happend
      obtain ⟨_, _, _, _, rfl⟩ := happend
      exact ⟨rfl, rfl⟩
    refine ⟨hframe.1.trans hshows.flag, hframe.2.trans hshows.all, fun ptr => ?_⟩
    rw [IgnoreView.step, hranges, Ignore.append_covers happend]

/-- An operation changes the ignore state by its calls. -/
theorem Tmi.op_shows {o : Op} {r : Option Int32} (h : t.op env b o = .ok (r, t'))
    (hshows : t.ignore.Shows v) : t'.ignore.Shows (v.steps (t.ignoreCalls env b o)) := by
  cases o with
  | write sp ty addr value =>
    simp only [op, itmWrite, bind_eq_ok] at h
    obtain ⟨t1, h, ht⟩ := h
    cases ht
    split at h
    · cases h
      exact hshows
    · rw [bind_eq_ok] at h
      obtain ⟨_, _, ht⟩ := h
      cases ht
      exact hshows
  | malloc size =>
    simp only [op, bind_eq_ok] at h
    obtain ⟨⟨addr, t1⟩, hmalloc, ht⟩ := h
    cases ht
    simp only [Tmi.ignoreCalls, hmalloc]
    unfold itmMalloc at hmalloc
    split at hmalloc
    · next hall =>
      rw [bind_eq_ok] at hmalloc
      obtain ⟨t2, hadd, ht⟩ := hmalloc
      cases ht
      split
      · next hp =>
        rw [Tmi.seiIgnoreAddr, if_pos hp] at hadd
        cases hadd
        exact hshows
      · next hp =>
        rw [hshows.all] at hall
        rw [IgnoreView.steps, List.foldl_cons, List.foldl_nil, IgnoreView.step, if_neg hall]
        exact Tmi.seiIgnoreAddr_shows
          (t := { t with machine := (t.machine.malloc env size).2 }) hp hadd
          hshows
    · next hall =>
      rw [bind_eq_ok] at hmalloc
      obtain ⟨_, _, ht⟩ := hmalloc
      cases ht
      split
      · exact hshows
      · rw [Decidable.not_not, hshows.all] at hall
        rw [IgnoreView.steps, List.foldl_cons, List.foldl_nil, IgnoreView.step, if_pos hall]
        exact hshows
  | free ptr =>
    simp only [op, itmFree, bind_eq_ok] at h
    obtain ⟨t1, h, ht⟩ := h
    cases ht
    split at h
    · cases h
      exact hshows
    · rw [bind_eq_ok] at h
      obtain ⟨_, _, ht⟩ := h
      cases ht
      exact hshows
  | outputAppend ptr size =>
    simp only [op, bind_eq_ok] at h
    obtain ⟨_, _, ht⟩ := h
    cases ht
    exact hshows
  | outputDone =>
    simp only [op, bind_eq_ok] at h
    obtain ⟨_, _, ht⟩ := h
    cases ht
    exact hshows
  | ignore x =>
    cases h
    exact ⟨rfl, hshows.all, hshows.covers⟩
  | ignoreAll x =>
    cases h
    exact ⟨hshows.flag, rfl, hshows.covers⟩
  | ignoreAddr start stop =>
    simp only [op, bind_eq_ok] at h
    obtain ⟨t1, hadd, ht⟩ := h
    cases ht
    rw [Tmi.ignoreCalls]
    split
    · next hp =>
      rw [Tmi.seiIgnoreAddr, if_pos hp] at hadd
      cases hadd
      exact hshows
    · next hp => exact Tmi.seiIgnoreAddr_shows hp hadd hshows
  | sys c real =>
    simp only [op, bind_eq_ok] at h
    obtain ⟨_, _, ht⟩ := h
    cases ht
    exact hshows
  | lock c real =>
    simp only [op, bind_eq_ok] at h
    obtain ⟨_, _, ht⟩ := h
    cases ht
    exact hshows

/-- The end of a phase resets the ignore state, however the transaction goes on. -/
theorem Tmi.seiCommit_shows {next : Next} (h : t.seiCommit env b = .ok (next, t'))
    (hshows : t.ignore.Shows v) : t'.ignore.Shows (v.step .reset) := by
  rcases Tmi.seiCommit_cases h with ⟨_, _, hswitch⟩ | ⟨_, _, w, _, hretry⟩ | ⟨_, _, w, _, hleave⟩
  · simp only [Tmi.switchPhase, bind_eq_ok, pure_eq_ok, Except.ok.injEq] at hswitch
    obtain ⟨_, _, rfl⟩ := hswitch
    exact hshows.reset
  · simp only [Tmi.retryCommit, bind_eq_ok, pure_eq_ok, Except.ok.injEq] at hretry
    obtain ⟨_, _, rfl⟩ := hretry
    exact hshows.reset
  · simp only [Tmi.leave, bind_eq_ok, pure_eq_ok, Except.ok.injEq] at hleave
    obtain ⟨_, _, _, _, rfl⟩ := hleave
    exact hshows.reset

end Shows

/-! ## Interleavings -/

/-- A step of a thread, with the ignore calls it makes. -/
inductive ThreadStep where
  | begin
  | op (calls : List IgnoreCall)
  | commit
  deriving DecidableEq, Repr

/-- The process after an interleaving of steps of its threads. -/
inductive Process.Run (env : Env) (b : Build) (s0 : Process) :
    List (Nat × ThreadStep) → Process → Prop where
  | init : Run env b s0 [] s0
  | begin {es s} (i rbp : Nat) (h : Run env b s0 es s) :
      Run env b s0 (es ++ [(i, .begin)]) (s.set i ((s.tmi i).seiBegin rbp))
  | op {es s o r t} (i : Nat) (h : Run env b s0 es s) (hop : (s.tmi i).op env b o = .ok (r, t)) :
      Run env b s0 (es ++ [(i, .op ((s.tmi i).ignoreCalls env b o))]) (s.set i t)
  | commit {es s next t} (i : Nat) (h : Run env b s0 es s)
      (hcommit : (s.tmi i).seiCommit env b = .ok (next, t)) :
      Run env b s0 (es ++ [(i, .commit)]) (s.set i t)

/-- The calls of a step that the process sees: the end of a phase resets, its start does not. -/
def ThreadStep.shared : ThreadStep → List IgnoreCall
  | .begin => []
  | .op calls => calls
  | .commit => [.reset]

/-- The calls of a step that count for the thread that makes it: both ends of a phase reset. -/
def ThreadStep.own : ThreadStep → List IgnoreCall
  | .begin => [.reset]
  | .op calls => calls
  | .commit => [.reset]

/-- What the calls of all threads say. -/
def sharedView (es : List (Nat × ThreadStep)) : IgnoreView :=
  IgnoreView.init.steps (es.flatMap fun e => e.2.shared)

/-- What the calls of thread `i` say. -/
def ownView (i : Nat) (es : List (Nat × ThreadStep)) : IgnoreView :=
  IgnoreView.init.steps ((es.filter fun e => e.1 = i).flatMap fun e => e.2.own)

section Interleavings

variable {env : Env} {b : Build} {s0 s : Process} {es : List (Nat × ThreadStep)} {t' : Tmi}

/-- In force are the calls of all threads. -/
theorem Process.Run.shows (h : Process.Run env b s0 es s) (hinit : s0.ignore = Ignore.init) :
    s.ignore.Shows (sharedView es) := by
  induction h with
  | init =>
    rw [hinit]
    exact Ignore.shows_init
  | begin i rbp h ih =>
    rw [sharedView, List.flatMap_append, IgnoreView.steps_append]
    exact ih
  | op i h hop ih =>
    rw [sharedView, List.flatMap_append, IgnoreView.steps_append, List.flatMap_singleton]
    exact Tmi.op_shows hop ih
  | commit i h hcommit ih =>
    rw [sharedView, List.flatMap_append, IgnoreView.steps_append]
    exact Tmi.seiCommit_shows hcommit ih

/-- A write is pushed to the log unless it is to the stack or the ignore state says otherwise. -/
theorem Tmi.itmWrite_pushed_iff {t : Tmi} {v : IgnoreView} {p sp addr value : Nat} {ty : UIntTy}
    (hp : t.sei.p = p) (hshows : t.ignore.Shows v) (h : t.itmWrite b sp ty addr value = .ok t') :
    (t'.sei.cow p).pushed = (t.sei.cow p).pushed + 1 ↔
      ¬ (sp ≤ addr ∧ addr < t.high) ∧ ¬ v.Ignores addr := by
  have hignore : t.ignoreAddr sp addr = true ↔ (sp ≤ addr ∧ addr < t.high) ∨ v.Ignores addr := by
    rw [IgnoreView.Ignores, ← hshows.flag, ← hshows.covers]
    simp only [Tmi.ignoreAddr, Bool.or_eq_true, bne_iff_ne, Bool.and_eq_true, decide_eq_true_eq]
    tauto
  rw [← not_or, ← hignore]
  unfold Tmi.itmWrite at h
  split at h
  · next hign =>
    cases h
    exact iff_of_false (Nat.succ_ne_self _).symm (not_not.mpr hign)
  · next hign =>
    simp only [World.write, bind_eq_ok, pure_eq_ok, Except.ok.injEq] at h
    obtain ⟨_, ⟨_, _, _, _, rfl⟩, rfl⟩ := h
    refine iff_of_true ?_ hign
    have hpt : t.world.sei.p.toNat = p := by
      show t.sei.p.toNat = p
      rw [hp, Int.toNat_natCast]
    show (Function.update t.sei.cow t.world.sei.p.toNat _ p).pushed = _
    rw [hpt, Function.update_self, Abuf.push_pushed]

/-- After any interleaving, a write of thread `i` in its phase `p` is pushed to its log as the
stack and the calls this thread has made in its phase say, exactly when the write is to the
stack, or the calls in force for the process and those of the thread agree on the address. -/
theorem pushed_asOwn_iff {i p sp addr value : Nat} {ty : UIntTy} (h : Process.Run env b s0 es s)
    (hinit : s0.ignore = Ignore.init) (hp : (s.threads i).sei.p = p)
    (hwrite : (s.tmi i).itmWrite b sp ty addr value = .ok t') :
    ((t'.sei.cow p).pushed = ((s.threads i).sei.cow p).pushed + 1 ↔
        ¬ (sp ≤ addr ∧ addr < (s.threads i).high) ∧ ¬ (ownView i es).Ignores addr) ↔
      (sp ≤ addr ∧ addr < (s.threads i).high) ∨
        ((sharedView es).Ignores addr ↔ (ownView i es).Ignores addr) := by
  have hpushed := Tmi.itmWrite_pushed_iff (t := s.tmi i) hp (h.shows hinit) hwrite
  refine (iff_congr hpushed Iff.rfl).trans ?_
  show (¬ (sp ≤ addr ∧ addr < (s.threads i).high) ∧ _ ↔ _) ↔ _
  rw [and_congr_right_iff, not_iff_not, ← or_iff_not_imp_left]

/-- Thread 1 ignores a range, and thread 0 writes elsewhere. -/
theorem pushed_asOwn_elsewhere :
    ∃ s t', Process.Run Env.plain (Build.twoWay true false)
        (Process.init (Build.twoWay true false) fun _ => 0)
        [(0, .begin), (1, .begin), (1, .op [.ignoreAddr 8 15])] s ∧
      (s.tmi 0).itmWrite (Build.twoWay true false) 0 .uint8 64 1 = .ok t' ∧
      ((t'.sei.cow 0).pushed = ((s.threads 0).sei.cow 0).pushed + 1 ↔
        ¬ (0 ≤ 64 ∧ 64 < (s.threads 0).high) ∧
          ¬ (ownView 0 [(0, .begin), (1, .begin), (1, .op [.ignoreAddr 8 15])]).Ignores 64) := by
  have hinit : Process.Run Env.plain (Build.twoWay true false)
    (Process.init (Build.twoWay true false) fun _ => 0) [] _ := .init
  have h := Process.Run.op (o := .ignoreAddr 8 15) 1 (.begin 1 0 (.begin 0 0 hinit)) rfl
  exact ⟨_, _, h, rfl, (pushed_asOwn_iff (p := 0) h rfl rfl rfl).mpr (.inr (by decide))⟩

/-- Thread 1 calls `__sei_ignore`, and thread 0 writes in its transaction without any ignore
call of its own: the write is not logged. -/
theorem pushed_asOwn_ignored :
    ∃ s t', Process.Run Env.plain (Build.twoWay true false)
        (Process.init (Build.twoWay true false) fun _ => 0)
        [(0, .begin), (1, .begin), (1, .op [.ignore 1])] s ∧
      (s.tmi 0).itmWrite (Build.twoWay true false) 0 .uint8 64 1 = .ok t' ∧
      (t'.sei.cow 0).pushed = ((s.threads 0).sei.cow 0).pushed ∧
      ¬ (0 ≤ 64 ∧ 64 < (s.threads 0).high) ∧
      ¬ (ownView 0 [(0, .begin), (1, .begin), (1, .op [.ignore 1])]).Ignores 64 := by
  have hinit : Process.Run Env.plain (Build.twoWay true false)
    (Process.init (Build.twoWay true false) fun _ => 0) [] _ := .init
  have h := Process.Run.op (o := .ignore 1) 1 (.begin 1 0 (.begin 0 0 hinit)) rfl
  exact ⟨_, _, h, rfl, rfl, by decide, by decide⟩

end Interleavings

end LibSei
