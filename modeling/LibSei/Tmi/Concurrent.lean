-- SUMMARY: Threads that run handlers under two-phase locking, one operation at a time in any order.
import LibSei.ModeCow.Handler
import LibSei.Tmi.LockHistory
import LibSei.Tmi.Process

/-!
# Interleaved handlers

Several threads run handlers that read, write and lock. A step is one operation of one
thread, the switch to its next phase, its commit, or one turn of the loop that releases its
locks. Along with the process goes the memory that the commits so far have made; it is not
part of the process and no step looks at it.
-/

namespace LibSei

open Memory Control

/-! ## Handlers that lock -/

/-- A program of logged reads, logged writes and lock operations. -/
inductive LockHandler where
  | done
  | read (t : UIntTy) (addr : Nat) (next : Nat → LockHandler)
  | write (t : UIntTy) (addr value : Nat) (next : LockHandler)
  | lock (o : LockOp) (next : Int32 → LockHandler)

/-- What a run of such a handler does, step by step. -/
inductive Action where
  | access (a : Access)
  | lock (o : LockOp) (r : Int32)
  deriving DecidableEq

def Action.access? : Action → Option Access
  | .access a => some a
  | .lock _ _ => none

def Action.lock? : Action → Option (LockOp × Int32)
  | .access _ => none
  | .lock o r => some (o, r)

/-- The writes of a run, in order. -/
def actionWrites (es : List Action) : List Write := accessWrites (es.filterMap Action.access?)

/-- The lock operations of a run, in order, with their results. -/
def actionLocks (es : List Action) : List (LockOp × Int32) := es.filterMap Action.lock?

/-- The access touches the byte. -/
def Access.Touches (byte : Nat) : Access → Prop
  | .read t addr _ => addr ≤ byte ∧ byte < addr + t.sizeof
  | .write t addr _ => addr ≤ byte ∧ byte < addr + t.sizeof

def Action.Touches (byte : Nat) : Action → Prop
  | .access a => a.Touches byte
  | .lock _ _ => False

/-- An action that reads gets the value that memory `m` holds. -/
def Action.ReadsFrom (m : Mem) : Action → Prop
  | .access (.read t addr v) => v = load m addr t.sizeof
  | _ => True

/-- The actions are those of a run alone on memory `m`: every value read is what `m` and the
writes before it have left. -/
def RunsOn (m : Mem) : List Action → Prop
  | [] => True
  | e :: es => e.ReadsFrom m ∧ RunsOn (runWrites (actionWrites [e]) m) es

namespace LockHandler

/-- The rest of a handler after an action, if the action is what it does next. -/
def next : LockHandler → Action → Option LockHandler
  | .read t addr next, .access (.read t' addr' v) =>
      if t = t' ∧ addr = addr' then some (next v) else none
  | .write t addr value next, .access (.write t' addr' value') =>
      if t = t' ∧ addr = addr' ∧ value = value' then some next else none
  | .lock o next, .lock o' r => if o = o' then some (next r) else none
  | _, _ => none

/-- The rest of a handler after a list of actions. -/
def after (h : LockHandler) (es : List Action) : Option LockHandler := es.foldlM next h

end LockHandler

section Actions

variable {es ds : List Action} {e : Action} {m m' : Mem} {byte : Nat} {h h' : LockHandler}

@[simp] theorem actionWrites_append :
    actionWrites (es ++ ds) = actionWrites es ++ actionWrites ds := by
  simp [actionWrites, accessWrites]

theorem actionWrites_lock {o : LockOp} {r : Int32} :
    actionWrites (es ++ [.lock o r]) = actionWrites es :=
  actionWrites_append.trans (List.append_nil _)

@[simp] theorem actionLocks_append : actionLocks (es ++ ds) = actionLocks es ++ actionLocks ds :=
  List.filterMap_append

theorem sized_actionWrites (es : List Action) : Abuf.Sized (actionWrites es) :=
  Handler.sized_accessWrites _

/-- What the writes of a run cover is touched by the run. -/
theorem touches_of_covers {w : Write} (hw : w ∈ actionWrites es) (hb : w.Covers byte) :
    ∃ e ∈ es, e.Touches byte := by
  simp only [actionWrites, accessWrites, writesOf, List.mem_filterMap] at hw
  obtain ⟨c, ⟨a, ⟨e, he, ha⟩, hc⟩, hw⟩ := hw
  refine ⟨e, he, ?_⟩
  cases e with
  | lock o r => cases ha
  | access a' =>
    cases ha
    cases a with
    | read t addr v => cases hc
    | write t addr v =>
      cases hc
      cases hw
      exact hb

theorem runsOn_append :
    RunsOn m (es ++ ds) ↔ RunsOn m es ∧ RunsOn (runWrites (actionWrites es) m) ds := by
  induction es generalizing m with
  | nil => simp [RunsOn, actionWrites, accessWrites, writesOf]
  | cons e es ih =>
    have hcons : actionWrites ([e] ++ es) = actionWrites [e] ++ actionWrites es :=
      actionWrites_append
    rw [List.singleton_append] at hcons
    rw [List.cons_append, RunsOn, RunsOn, ih, hcons, runWrites_append, and_assoc]

/-- A read sees the bytes it touches. -/
theorem Action.ReadsFrom.congr (h : e.ReadsFrom m)
    (hm : ∀ byte, e.Touches byte → m' byte = m byte) : e.ReadsFrom m' := by
  cases e with
  | lock o r => trivial
  | access a =>
    cases a with
    | write t addr v => trivial
    | read t addr v =>
      have hload : load m' addr t.sizeof = load m addr t.sizeof := load_eq_iff.mpr hm
      exact Eq.trans h hload.symm

theorem RunsOn.congr (h : RunsOn m es) (hm : ∀ e ∈ es, ∀ byte, e.Touches byte → m' byte = m byte) :
    RunsOn m' es := by
  induction es generalizing m m' with
  | nil => trivial
  | cons e es ih =>
    refine ⟨h.1.congr (hm e List.mem_cons_self), ih h.2 fun e' he' byte hb => ?_⟩
    exact runWrites_congr (hm e' (List.mem_cons_of_mem _ he') byte hb)

theorem LockHandler.after_append :
    h.after (es ++ ds) = (h.after es).bind fun h => h.after ds := List.foldlM_append

theorem LockHandler.after_cons : h.after (e :: es) = (h.next e).bind fun h => h.after es :=
  List.foldlM_cons

theorem LockHandler.next_read {t : UIntTy} {addr : Nat} {k : Nat → LockHandler}
    (hnext : (LockHandler.read t addr k).next e = some h') :
    ∃ v, e = .access (.read t addr v) ∧ h' = k v := by
  cases e with
  | lock o r => cases hnext
  | access a =>
    cases a with
    | write t' addr' v => cases hnext
    | read t' addr' v =>
      rw [LockHandler.next, Option.ite_none_right_eq_some] at hnext
      obtain ⟨⟨rfl, rfl⟩, hnext⟩ := hnext
      exact ⟨v, rfl, (Option.some.inj hnext).symm⟩

theorem LockHandler.next_write {t : UIntTy} {addr value : Nat} {k : LockHandler}
    (hnext : (LockHandler.write t addr value k).next e = some h') :
    e = .access (.write t addr value) := by
  cases e with
  | lock o r => cases hnext
  | access a =>
    cases a with
    | read t' addr' v => cases hnext
    | write t' addr' v =>
      rw [LockHandler.next, Option.ite_none_right_eq_some] at hnext
      obtain ⟨⟨rfl, rfl, rfl⟩, _⟩ := hnext
      rfl

theorem LockHandler.next_lock {o : LockOp} {k : Int32 → LockHandler}
    (hnext : (LockHandler.lock o k).next e = some h') : ∃ r, e = .lock o r := by
  cases e with
  | access a => cases hnext
  | lock o' r =>
    rw [LockHandler.next, Option.ite_none_right_eq_some] at hnext
    obtain ⟨rfl, _⟩ := hnext
    exact ⟨r, rfl⟩

end Actions

/-! ## The release of the locks, turn by turn -/

/-- One turn of the loop that releases the locks. -/
def unlockNext (b : Build) (s : LockState) : Exec LockState := do
  let (l, v, abuf) ← s.abuf.pop b
  let s := { s with abuf := abuf }
  if (UInt64.ofNat v).toInt64.toInt32 = 0 then return s.really (.unlock l 0) else return s

theorem lateUnlock_succ {b : Build} {n : Nat} {s : LockState} :
    lateUnlock b (n + 1) s = (unlockNext b s >>= lateUnlock b n) := by
  rw [lateUnlock, unlockNext]
  cases s.abuf.pop b with
  | error e => rfl
  | ok x =>
    simp only [ok_bind]
    split <;> rfl

/-- The release takes no mutex. -/
theorem held_unlockNext {b : Build} {s s' : LockState} (h : unlockNext b s = .ok s') :
    s'.held ⊆ s.held := by
  rw [unlockNext, bind_eq_ok] at h
  obtain ⟨⟨l, v, abuf⟩, _, h⟩ := h
  simp only at h
  split at h
  · cases h
    intro m hm
    rw [LockState.held, LockState.really, heldAfter_append] at hm
    exact Finset.mem_of_mem_erase hm
  · cases h
    exact Finset.Subset.refl _

namespace Tmi

/-- `__sei_commit` between `sei_commit`, which has led to `w`, and the release of the locks. -/
def committing (t : Tmi) (w : World) : Tmi :=
  { (t.setWorld w).setLocks { t.locks with abuf := t.locks.abuf.rewind } with
    ignore := t.ignore.reset }

/-- The end of `__sei_commit`, when the locks have been released. -/
def cleaned (t : Tmi) : Tmi :=
  { t.setLocks { t.locks with abuf := t.locks.abuf.clean } with abufSc := t.abufSc.clean }

end Tmi

/-! ## Systems -/

/-- What protects a byte: a mutex, or that only one thread uses it. -/
inductive Guard where
  | mutex (m : Nat)
  | thread (i : Nat)
  deriving DecidableEq

/-- Where a thread stands: outside of handlers; inside one, of which `rest` is left in this
phase, after the actions `now`, with those of phase 0 in `first`; or releasing its locks, with
`n` entries to go. -/
inductive Pc where
  | outside
  | running (h rest : LockHandler) (first now : List Action)
  | leaving (n : Nat)

/-- An action of a handler in phase `p`. -/
def Pc.advance (p : Int) (h rest : LockHandler) (first now : List Action) (e : Action) : Pc :=
  .running h rest (if p = 0 then now ++ [e] else first) (now ++ [e])

/-- A process whose threads run handlers, with the memory of the commits so far. -/
structure System where
  process : Process
  pc : Nat → Pc
  committed : Mem

namespace System

def tmi (s : System) (i : Nat) : Tmi := s.process.tmi i

/-- The system after a step of thread `i`. -/
def set (s : System) (i : Nat) (t : Tmi) (pc : Pc) (committed : Mem) : System :=
  ⟨s.process.set i t, Function.update s.pc i pc, committed⟩

/-- The handler of thread `i` may make the access after the actions `now`: for every byte it
touches it has taken the mutex, unless no other thread uses the byte. -/
def Allowed (guard : Nat → Guard) (i : Nat) (now : List Action) (a : Access) : Prop :=
  ∀ byte, a.Touches byte →
    guard byte = .thread i ∨ ∃ m, guard byte = .mutex m ∧ m ∈ acquired (actionLocks now)

/-- A step of thread `i`. Handlers keep to the locks in phase 0; nothing is asked of them in
later phases. The underlying functions give a mutex to one thread at a time. -/
inductive Step (env : Env) (b : Build) (guard : Nat → Guard) (i : Nat) :
    System → System → Prop where
  | begin {s : System} (rbp : Nat) (h : LockHandler) (hpc : s.pc i = .outside) :
      Step env b guard i s (s.set i ((s.tmi i).seiBegin rbp) (.running h h [] []) s.committed)
  | read {s : System} {h ty addr next first now v}
      (hpc : s.pc i = .running h (.read ty addr next) first now)
      (hv : v = (s.tmi i).world.read ty addr)
      (hallowed : (s.tmi i).sei.p = 0 → Allowed guard i now (.read ty addr v)) :
      Step env b guard i s (s.set i (s.tmi i)
        (.advance (s.tmi i).sei.p h (next v) first now (.access (.read ty addr v))) s.committed)
  | write {s : System} {h ty addr value next first now sp r t'}
      (hpc : s.pc i = .running h (.write ty addr value next) first now)
      (hstack : ¬ (sp ≤ addr ∧ addr < (s.tmi i).high))
      (hop : (s.tmi i).op env b (.write sp ty addr value) = .ok (r, t'))
      (hallowed : (s.tmi i).sei.p = 0 → Allowed guard i now (.write ty addr value)) :
      Step env b guard i s (s.set i t'
        (.advance (s.tmi i).sei.p h next first now (.access (.write ty addr value))) s.committed)
  | lock {s : System} {h o next first now real r t'}
      (hpc : s.pc i = .running h (.lock o next) first now)
      (hop : (s.tmi i).op env b (.lock o real) = .ok (some r, t'))
      (hfree : (s.tmi i).sei.p = 0 → real = 0 → ∀ m, o.wants? = some m →
        ∀ j, j ≠ i → m ∉ (s.tmi j).locks.held) :
      Step env b guard i s (s.set i t'
        (.advance (s.tmi i).sei.p h (next r) first now (.lock o r)) s.committed)
  | switch {s : System} {h first now t'} (hpc : s.pc i = .running h .done first now)
      (hcommit : (s.tmi i).seiCommit env b = .ok (.reexecute, t')) :
      Step env b guard i s (s.set i t' (.running h h first []) s.committed)
  | commit {s : System} {h first now w} (hpc : s.pc i = .running h .done first now)
      (hlast : (s.tmi i).sei.redundancyLevel - 1 ≤ (s.tmi i).sei.p)
      (hcommit : World.Committed env b (s.tmi i).world w) :
      Step env b guard i s (s.set i ((s.tmi i).committing w)
        (.leaving (s.tmi i).locks.abuf.pushed) (runWrites (actionWrites now) s.committed))
  | unlock {s : System} {n l} (hpc : s.pc i = .leaving (n + 1))
      (hunlock : unlockNext b (s.tmi i).locks = .ok l) :
      Step env b guard i s (s.set i ((s.tmi i).setLocks l) (.leaving n) s.committed)
  | leave {s : System} (hpc : s.pc i = .leaving 0) :
      Step env b guard i s (s.set i (s.tmi i).cleaned .outside s.committed)

/-- Any number of steps, each of some thread. -/
def Steps (env : Env) (b : Build) (guard : Nat → Guard) : System → System → Prop :=
  Relation.ReflTransGen fun s s' => ∃ i, Step env b guard i s s'

/-- All threads are outside of handlers, thread `i` set to run `n i` phases, and hold no
mutex. -/
structure Initial (b : Build) (n : Nat → Nat) (s : System) : Prop where
  between : ∀ i, (s.tmi i).Between b (n i)
  enabled : s.process.ignore.writeDisable = 0
  unlocked : ∀ i, (s.tmi i).locks.held = ∅
  outside : ∀ i, s.pc i = .outside
  committed : s.committed = s.process.machine.mem

/-- A process whose threads have all been initialised. -/
def init (b : Build) (mem : Mem) : System := ⟨Process.init b mem, fun _ => .outside, mem⟩

theorem initial_init (b : Build) (mem : Mem) : (init b mem).Initial b fun _ => b.redundancy where
  between _ := Tmi.between_init b mem
  enabled := rfl
  unlocked _ := rfl
  outside _ := rfl
  committed := rfl

section Set

variable {s : System} {i j : Nat} {t : Tmi} {pc : Pc} {C : Mem}

@[simp] theorem tmi_set_self : (s.set i t pc C).tmi i = t := Process.tmi_set_self

theorem tmi_set_of_ne (h : j ≠ i) :
    (s.set i t pc C).tmi j = { s.tmi j with ignore := t.ignore, machine := t.machine } :=
  Process.tmi_set_of_ne h

@[simp] theorem pc_set_self : (s.set i t pc C).pc i = pc := Function.update_self _ _ _

theorem pc_set_of_ne (h : j ≠ i) : (s.set i t pc C).pc j = s.pc j := Function.update_of_ne h _ _

theorem set_set {t' : Tmi} {pc' : Pc} {C' : Mem} :
    (s.set i t pc C).set i t' pc' C' = s.set i t' pc' C' := by
  simp [set, Process.set]

theorem set_self : s.set i (s.tmi i) (s.pc i) s.committed = s := by
  simp [set, Process.set, tmi, Process.tmi]

end Set

section Commit

variable {env : Env} {b : Build} {guard : Nat → Guard} {s : System} {i : Nat}

/-- The loop that releases the locks, as steps. -/
theorem steps_lateUnlock {n : Nat} {l : LockState} (hpc : s.pc i = .leaving n)
    (h : lateUnlock b n (s.tmi i).locks = .ok l) :
    Steps env b guard s (s.set i ((s.tmi i).setLocks l) (.leaving 0) s.committed) := by
  induction n generalizing s with
  | zero =>
    cases h
    have hself : s.set i ((s.tmi i).setLocks (s.tmi i).locks) (.leaving 0) s.committed = s := by
      rw [← hpc]
      exact set_self
    rw [hself]
    exact Relation.ReflTransGen.refl
  | succ n ih =>
    rw [lateUnlock_succ, bind_eq_ok] at h
    obtain ⟨l', hunlock, h⟩ := h
    have hrest := ih (s := s.set i ((s.tmi i).setLocks l') (.leaving n) s.committed) pc_set_self
      (by rw [tmi_set_self]; exact h)
    rw [set_set, tmi_set_self] at hrest
    exact Relation.ReflTransGen.head ⟨i, .unlock hpc hunlock⟩ hrest

/-- The commit of a transaction is the commit of the library, the release of the locks turn by
turn, and the end. -/
theorem steps_seiCommit {h : LockHandler} {first now : List Action} {t' : Tmi}
    (hpc : s.pc i = .running h .done first now)
    (hcommit : (s.tmi i).seiCommit env b = .ok (.committed, t')) :
    Steps env b guard s (s.set i t' .outside (runWrites (actionWrites now) s.committed)) := by
  rcases Tmi.seiCommit_cases hcommit with ⟨hnext, _⟩ | ⟨hnext, _⟩ | ⟨_, hlast, w, hrun, hleave⟩
  · cases hnext
  · cases hnext
  simp only [Tmi.leave, LockState.release, bind_eq_ok, pure_eq_ok, Except.ok.injEq] at hleave
  obtain ⟨_, _, _, ⟨l, hunlock, rfl⟩, rfl⟩ := hleave
  have hloop : Steps env b guard (s.set i ((s.tmi i).committing w)
      (.leaving (s.tmi i).locks.abuf.pushed) (runWrites (actionWrites now) s.committed)) _ :=
    steps_lateUnlock (l := l) pc_set_self (by rw [tmi_set_self]; exact hunlock)
  rw [set_set, tmi_set_self] at hloop
  have hend := hloop.tail ⟨i, .leave pc_set_self⟩
  rw [set_set, tmi_set_self] at hend
  exact Relation.ReflTransGen.head ⟨i, .commit hpc hlast hrun⟩ hend

end Commit

end System

/-! ## The transactions of a run -/

/-- A handler that a thread has run to its end, with what it did. -/
structure Transaction where
  thread : Nat
  handler : LockHandler
  actions : List Action

namespace System

/-- The transaction that thread `i` commits in a step, if it commits one. -/
def commits? (i : Nat) (s s' : System) : Option Transaction :=
  match s.pc i, s'.pc i with
  | .running h _ _ now, .leaving _ => some ⟨i, h, now⟩
  | _, _ => none

/-- Any number of steps, each of some thread, with the transactions that commit, oldest first. -/
inductive Run (env : Env) (b : Build) (guard : Nat → Guard) (s : System) :
    List Transaction → System → Prop where
  | start : Run env b guard s [] s
  | step {ts s' s'' i} (h : Run env b guard s ts s') (hstep : Step env b guard i s' s'') :
      Run env b guard s (ts ++ (commits? i s' s'').toList) s''

section Run

variable {env : Env} {b : Build} {guard : Nat → Guard} {s s' : System} {ts : List Transaction}

theorem Run.steps (h : Run env b guard s ts s') : Steps env b guard s s' := by
  induction h with
  | start => exact .refl
  | step _ hstep ih => exact ih.tail ⟨_, hstep⟩

/-- Every interleaving is a run. -/
theorem Steps.exists_run (h : Steps env b guard s s') : ∃ ts, Run env b guard s ts s' := by
  induction h with
  | refl => exact ⟨[], .start⟩
  | tail _ hstep ih =>
    obtain ⟨ts, hrun⟩ := ih
    obtain ⟨i, hstep⟩ := hstep
    exact ⟨_, hrun.step hstep⟩

end Run

end System

end LibSei
