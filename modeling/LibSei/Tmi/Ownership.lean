-- SUMMARY: What holds of one thread inside a handler while others run: its undo log, what it owns and how its phases repeat phase 0.
import LibSei.Tmi.Concurrent

/-!
# Threads among others

A thread inside a handler owns the bytes that only it uses and those whose mutexes it
holds. On them memory is what the thread has written over what has been committed, however
other threads change the rest. This is all the undo log needs: a switch restores committed
values. Since reads see owned bytes only, a later phase repeats phase 0 action by action.
-/

namespace LibSei

open Memory Control

/-- Thread `i` owns the byte when it holds the mutexes `H`. -/
def Owns (guard : Nat → Guard) (i : Nat) (H : Finset Nat) (byte : Nat) : Prop :=
  guard byte = .thread i ∨ ∃ m, guard byte = .mutex m ∧ m ∈ H

section Owns

variable {guard : Nat → Guard} {i j byte : Nat} {H K : Finset Nat}

theorem Owns.mono (h : Owns guard i H byte) (hsub : H ⊆ K) : Owns guard i K byte := by
  rcases h with h | ⟨m, hguard, hm⟩
  · exact .inl h
  · exact .inr ⟨m, hguard, hsub hm⟩

/-- No byte has two owners. -/
theorem Owns.exclusive (h : Owns guard i H byte) (hij : i ≠ j) (hmutex : ∀ m ∈ H, m ∉ K) :
    ¬ Owns guard j K byte := by
  rintro (hj | ⟨m, hj, hm⟩) <;> rcases h with hi | ⟨m', hi, hm'⟩ <;> rw [hi] at hj
  · exact hij (Guard.thread.inj hj)
  · cases hj
  · cases hj
  · exact hmutex m' hm' (Guard.mutex.inj hj ▸ hm)

end Owns

theorem Tmi.op_lock_eq_ok {env : Env} {b : Build} {t t' : Tmi} {o : LockOp} {real r : Int32} :
    t.op env b (.lock o real) = .ok (some r, t') ↔
      ∃ l, o.run b t.sei.p real t.locks = .ok (r, l) ∧ t' = t.setLocks l := by
  simp only [Tmi.op, bind_eq_ok, pure_eq_ok, Except.ok.injEq, Prod.mk.injEq, Option.some.injEq]
  constructor
  · rintro ⟨⟨_, l⟩, hrun, rfl, rfl⟩
    exact ⟨l, hrun, rfl⟩
  · rintro ⟨l, hrun, rfl⟩
    exact ⟨(r, l), hrun, rfl, rfl⟩

/-! ## Memory -/

/-- A thread in a phase in which it has made the writes `ws`: it can go back to memory that
holds the committed values `C` in the bytes it owns. -/
structure Undo (b : Build) (n : Nat) (own : Nat → Prop) (C : Mem) (ws : List Write) (t : Tmi) :
    Prop where
  within : ∃ t0, Tmi.Between b n t0 ∧ Tmi.Within n t0 t
  frees : t.sei.tbin.nitems 0 = 0
  calls : t.sei.wts.nitems 0 = 0
  base : ∃ w0 hist k, World.InPhase w0 n hist k ws t.world ∧ ∀ byte, own byte → w0.mem byte = C byte

namespace Undo

variable {env : Env} {b : Build} {n : Nat} {own : Nat → Prop} {C : Mem} {ws : List Write}
  {t t' : Tmi}

/-- Owned bytes hold what the thread has written over what is committed. -/
theorem mem (h : Undo b n own C ws t) {byte : Nat} (hown : own byte) :
    t.machine.mem byte = runWrites ws C byte := by
  obtain ⟨w0, hist, k, hin, hbase⟩ := h.base
  exact (congrFun hin.mem byte).trans (runWrites_congr (hbase byte hown))

theorem load (h : Undo b n own C ws t) {addr size : Nat}
    (hown : ∀ byte, addr ≤ byte ∧ byte < addr + size → own byte) :
    Memory.load t.machine.mem addr size = Memory.load (runWrites ws C) addr size :=
  load_eq_iff.mpr fun byte hb => h.mem (hown byte hb)

theorem begin {rbp : Nat} (hbetween : t.Between b n)
    (hmem : ∀ byte, own byte → t.machine.mem byte = C byte) :
    Undo b n own C [] (t.seiBegin rbp) := by
  have hred : 0 < b.redundancy := Nat.lt_of_lt_of_le (by decide) b.two_le
  have hsei : (t.seiBegin rbp).sei.tbin = t.sei.tbin ∧ (t.seiBegin rbp).sei.wts = t.sei.wts := by
    simp only [Tmi.seiBegin, Tmi.setWorld, World.beginPhase]
    split <;> exact ⟨rfl, rfl⟩
  exact {
    within := ⟨t, hbetween, hbetween.within⟩
    frees := by rw [hsei.1]; exact hbetween.tbin 0 hred
    calls := by rw [hsei.2]; exact hbetween.wts 0 hred
    base := ⟨t.world, fun _ => [], 0, hbetween.idle.startable.begin, hmem⟩ }

/-- Other threads may change the bytes that the thread does not own. Memory it can go back to
changes with them. -/
theorem interfere {C' : Mem} (h : Undo b n own C ws t)
    (hcover : ∀ w ∈ ws, ∀ byte, w.Covers byte → own byte) (hsei : t'.sei = t.sei)
    (hmem : ∀ byte, own byte → t'.machine.mem byte = t.machine.mem byte)
    (hC : ∀ byte, own byte → C' byte = C byte) : Undo b n own C' ws t' := by
  obtain ⟨t0, hbetween, hwithin⟩ := h.within
  obtain ⟨w0, hist, k, hin, hbase⟩ := h.base
  have hin' := hin.interfere fun w hw byte hb => hmem byte (hcover w hw byte hb)
  have hworld : World.mk t.sei t'.machine = t'.world := by rw [← hsei]
  rw [hworld] at hin'
  refine ⟨⟨t0, hbetween, hwithin.congr hsei⟩, hsei ▸ h.frees, hsei ▸ h.calls, _, hist, k, hin', ?_⟩
  intro byte hown
  show patch ws w0.mem t'.machine.mem byte = C' byte
  rw [hC byte hown]
  by_cases hb : ∃ w ∈ ws, w.Covers byte
  · rw [patch_of_covers hb, hbase byte hown]
  · rw [patch_of_not_covers hb, hmem byte hown, h.mem hown]
    exact runWrites_of_not_covers fun w hw hcov => hb ⟨w, hw, hcov⟩

/-- Bytes that the thread has not written and that hold committed values can be added to what
it owns. -/
theorem acquire {own' : Nat → Prop} (h : Undo b n own C ws t)
    (hown : ∀ byte, own' byte → own byte ∨
      (¬ ∃ w ∈ ws, w.Covers byte) ∧ t.machine.mem byte = C byte) : Undo b n own' C ws t := by
  obtain ⟨w0, hist, k, hin, hbase⟩ := h.base
  refine ⟨h.within, h.frees, h.calls, w0, hist, k, hin, fun byte hb => ?_⟩
  rcases hown byte hb with hb | ⟨hcover, hmem⟩
  · exact hbase byte hb
  · have hbyte : t.machine.mem byte = w0.mem byte := (congrFun hin.mem byte).trans
      (runWrites_of_not_covers fun w hw hcov => hcover ⟨w, hw, hcov⟩)
    exact hbyte.symm.trans hmem

/-- The buffers of the thread have no part in this. -/
theorem congr (h : Undo b n own C ws t) (hworld : t'.world = t.world) : Undo b n own C ws t' := by
  have hsei : t'.sei = t.sei := congrArg World.sei hworld
  obtain ⟨t0, hbetween, hwithin⟩ := h.within
  exact ⟨⟨t0, hbetween, hwithin.congr hsei⟩, hsei ▸ h.frees, hsei ▸ h.calls, hworld ▸ h.base⟩

/-- A write that is not ignored. -/
theorem write {sp addr value : Nat} {ty : UIntTy} {r : Option Int32} (h : Undo b n own C ws t)
    (hignore : t.ignoreAddr sp addr = false)
    (hop : t.op env b (.write sp ty addr value) = .ok (r, t')) :
    Undo b n own C (ws ++ actionWrites [.access (.write ty addr value)]) t' ∧
      t' = t.setWorld t'.world ∧ t'.sei.p = t.sei.p ∧
      t'.machine.mem = runWrites (actionWrites [.access (.write ty addr value)]) t.machine.mem := by
  have hkeeps := Tmi.op_keeps hop
  obtain ⟨t0, hbetween, hwithin⟩ := h.within
  obtain ⟨w0, hist, k, hin, hbase⟩ := h.base
  simp only [Tmi.op, Tmi.itmWrite, hignore, Bool.false_eq_true, if_false, bind_eq_ok] at hop
  obtain ⟨t1, ⟨w, hwrite, ht1⟩, ht'⟩ := hop
  cases ht1
  cases ht'
  have hk : k < n := by
    have hp : t.sei.p = k := hin.p
    have hlt := hwithin.p_lt
    omega
  have hle := hbetween.idle.le
  have hlog : w = t.world.logWrite k ty addr value :=
    Except.ok.inj (hwrite.symm.trans (World.write_eq hin.p (by omega) ty addr value))
  refine ⟨⟨⟨t0, hbetween, hwithin.keeps hkeeps⟩, ?_, ?_, w0, hist, k, ?_, hbase⟩, rfl,
    hkeeps.frame.p, ?_⟩
  · show w.sei.tbin.nitems 0 = 0
    rw [hlog]
    exact h.frees
  · show w.sei.wts.nitems 0 = 0
    rw [hlog]
    exact h.calls
  · exact hin.write hk hbetween.idle.le rfl hwrite
  · show w.mem = _
    rw [hlog]
    exact (apply_toWrite rfl t.machine.mem).symm

/-- A switch puts the committed values back. -/
theorem switch (h : Undo b n own C ws t) (hsized : Abuf.Sized ws)
    (hcommit : t.seiCommit env b = .ok (.reexecute, t')) :
    Undo b n own C [] t' ∧ t'.locks = { t.locks with abuf := t.locks.abuf.rewind } ∧
      t'.ignore = t.ignore.reset ∧ t'.sei.p = t.sei.p + 1 ∧
      ∀ byte, (¬ ∃ w ∈ ws, w.Covers byte) → t'.machine.mem byte = t.machine.mem byte := by
  obtain ⟨t0, hbetween, hwithin⟩ := h.within
  obtain ⟨w0, hist, k, hin, hbase⟩ := h.base
  rcases Tmi.seiCommit_cases hcommit with ⟨_, hp, hswitch⟩ | ⟨hnext, _⟩ | ⟨hnext, _⟩
  case inr.inl => cases hnext
  case inr.inr => cases hnext
  have hwithin' := Tmi.Within.switchPhase (t := { t with ignore := t.ignore.reset })
    (hwithin.congr rfl) hp hswitch
  simp only [Tmi.switchPhase, bind_eq_ok, pure_eq_ok, Except.ok.injEq] at hswitch
  obtain ⟨w, hswitch, rfl⟩ := hswitch
  have hk : k + 1 < n := by
    have hp' : t.sei.p = k := hin.p
    have hlevel : t.sei.redundancyLevel = n := hin.level
    omega
  have hend := hin.remember
  have hws : Function.update hist k ws k = ws := Function.update_self _ _ _
  have hin' : World.InPhase w0 n (Function.update hist k ws) (k + 1) [] w :=
    World.InPhase.switch (hws.symm ▸ hend) hk (hws.symm ▸ hsized) hswitch
  have hfields : w.sei.tbin = t.sei.tbin ∧ w.sei.wts = t.sei.wts :=
    (World.switch_frame hswitch).2.2.2
  refine ⟨⟨⟨t0, hbetween, hwithin'⟩, ?_, ?_, w0, _, k + 1, hin', hbase⟩, rfl, rfl, ?_,
    fun byte hb => ?_⟩
  · exact (congrArg (fun x => x.nitems 0) hfields.1).trans h.frees
  · exact (congrArg (fun x => x.nitems 0) hfields.2).trans h.calls
  · show w.sei.p = t.sei.p + 1
    rw [hin'.p, show t.sei.p = k from hin.p]
    rfl
  · show w.mem byte = t.world.mem byte
    rw [hin'.mem, hin.mem]
    exact (runWrites_of_not_covers fun x hx hcov => hb ⟨x, hx, hcov⟩).symm

variable (env) in
/-- Writes succeed. -/
theorem exists_write (h : Undo b n own C ws t) {sp addr : Nat} (ty : UIntTy) (value : Nat)
    (hignore : t.ignoreAddr sp addr = false) :
    ∃ t', t.op env b (.write sp ty addr value) = .ok (none, t') := by
  obtain ⟨t0, hbetween, hwithin⟩ := h.within
  obtain ⟨w0, hist, k, hin, _⟩ := h.base
  have hk : k < b.redundancy := by
    have hp : t.sei.p = k := hin.p
    have hlt := hwithin.p_lt
    have hle := hbetween.idle.le
    omega
  have hwrite : t.itmWrite b sp ty addr value =
      .ok (t.setWorld (t.world.logWrite k ty addr value)) := by
    rw [Tmi.itmWrite, hignore]
    exact bind_eq_ok.mpr ⟨_, World.write_eq hin.p hk ty addr value, rfl⟩
  exact ⟨_, bind_eq_ok.mpr ⟨_, hwrite, rfl⟩⟩

variable (env) in
/-- A phase before the last can be left. -/
theorem exists_switch (h : Undo b n own C ws t) (hsized : Abuf.Sized ws)
    (hp : t.sei.p < t.sei.redundancyLevel - 1) :
    ∃ t', t.seiCommit env b = .ok (.reexecute, t') := by
  obtain ⟨t0, hbetween, hwithin⟩ := h.within
  obtain ⟨w0, hist, k, hin, _⟩ := h.base
  have hk : k + 1 < n := by
    have hp' : t.sei.p = k := hin.p
    have hlevel : t.sei.redundancyLevel = n := hin.level
    omega
  obtain ⟨w, hswitch⟩ := hin.exists_switch env hk hbetween.idle.le hsized
  have hphase : ({ t with ignore := t.ignore.reset } : Tmi).switchPhase env b = .ok _ :=
    bind_eq_ok.mpr ⟨w, hswitch, rfl⟩
  exact ⟨_, (if_pos hp).trans (bind_eq_ok.mpr ⟨_, hphase, rfl⟩)⟩

end Undo

/-! ## Actions -/

/-- A thread in phase `p` of handler `h`, with `rest` left of it after the actions `now`. Phase
0 has made the actions `first`, on bytes the thread owns; a later phase repeats them. -/
structure Replays (guard : Nat → Guard) (i : Nat) (C : Mem) (p : Int) (l : LockState)
    (h rest : LockHandler) (first now : List Action) : Prop where
  after : h.after now = some rest
  firstPhase : p = 0 → first = now
  laterPhase : p ≠ 0 → h.after first = some .done ∧ now <+: first
  reads : RunsOn C first
  owned : ∀ e ∈ first, ∀ byte, e.Touches byte → Owns guard i l.held byte
  held : ∀ m ∈ acquired (actionLocks first), m ∈ l.held
  unlocks : ∀ o r, Action.lock o r ∈ first → o.wants? = none → r = 0
  record : l.abuf.Results .uint64 (lockLog (actionLocks first))
    (if p = 0 then 0 else (lockLog (actionLocks now)).length)

namespace Replays

variable {b : Build} {guard : Nat → Guard} {i : Nat} {C : Mem} {p : Int} {l l' : LockState}
  {h rest rest' : LockHandler} {first now : List Action} {e : Action}

theorem begin (h : LockHandler) (hempty : l.abuf.Empty) : Replays guard i C 0 l h h [] [] where
  after := rfl
  firstPhase _ := rfl
  laterPhase hp := absurd rfl hp
  reads := trivial
  owned _ he := absurd he List.not_mem_nil
  held _ hm := absurd hm List.not_mem_nil
  unlocks _ _ he := absurd he List.not_mem_nil
  record := hempty.results

theorem repeats (hr : Replays guard i C p l h rest first now) : now <+: first := by
  by_cases hp : p = 0
  · rw [hr.firstPhase hp]
  · exact (hr.laterPhase hp).2

/-- The thread owns what it has written. -/
theorem owns_of_covers (hr : Replays guard i C p l h rest first now) {w : Write} {byte : Nat}
    (hw : w ∈ actionWrites now) (hb : w.Covers byte) : Owns guard i l.held byte := by
  obtain ⟨e, he, htouch⟩ := touches_of_covers hw hb
  exact hr.owned e (hr.repeats.subset he) byte htouch

/-- The thread owns what it is allowed to touch. -/
theorem owns_of_allowed (hr : Replays guard i C p l h rest first now) (hp : p = 0) {a : Access}
    (hallowed : System.Allowed guard i now a) :
    ∀ byte, a.Touches byte → Owns guard i l.held byte := by
  intro byte hb
  rcases hallowed byte hb with hguard | ⟨m, hguard, hm⟩
  · exact .inl hguard
  · exact .inr ⟨m, hguard, hr.held m (hr.firstPhase hp ▸ hm)⟩

/-- What a later phase does next, if it is not at its end. -/
theorem next_of_later (hr : Replays guard i C p l h rest first now) (hp : p ≠ 0)
    (hrest : rest ≠ .done) : ∃ e rest', e ∈ first ∧ now ++ [e] <+: first ∧
      rest.next e = some rest' ∧ e.ReadsFrom (runWrites (actionWrites now) C) := by
  obtain ⟨hdone, ⟨post, rfl⟩⟩ := hr.laterPhase hp
  rw [LockHandler.after_append, hr.after] at hdone
  have hreads := (runsOn_append.mp hr.reads).2
  cases post with
  | nil => exact absurd (Option.some.inj hdone) hrest
  | cons e post =>
    rw [Option.bind_some, LockHandler.after_cons, Option.bind_eq_some_iff] at hdone
    obtain ⟨rest', hnext, _⟩ := hdone
    refine ⟨e, rest', by simp, ⟨post, by simp⟩, hnext, hreads.1⟩

/-- One more action: in phase 0 it is new, in later phases it is the next one of phase 0. -/
theorem extend (hr : Replays guard i C p l h rest first now) (hnext : rest.next e = some rest')
    (hheld : l.held ⊆ l'.held)
    (hfirst : p = 0 → e.ReadsFrom (runWrites (actionWrites now) C) ∧
      (∀ byte, e.Touches byte → Owns guard i l'.held byte) ∧
      (∀ m ∈ acquired (actionLocks [e]), m ∈ l'.held) ∧
      (∀ o r, e = .lock o r → o.wants? = none → r = 0) ∧
      l'.abuf.Results .uint64 (lockLog (actionLocks (now ++ [e]))) 0)
    (hlater : p ≠ 0 → now ++ [e] <+: first ∧
      l'.abuf.Results .uint64 (lockLog (actionLocks first))
        (lockLog (actionLocks (now ++ [e]))).length) :
    Replays guard i C p l' h rest' (if p = 0 then now ++ [e] else first) (now ++ [e]) := by
  have hafter : h.after (now ++ [e]) = some rest' := by
    rw [LockHandler.after_append, hr.after, Option.bind_some, LockHandler.after_cons, hnext]
    rfl
  by_cases hp : p = 0
  · obtain rfl := hr.firstPhase hp
    obtain ⟨hreads, howned, htaken, hunlock, hrecord⟩ := hfirst hp
    rw [if_pos hp]
    exact {
      after := hafter
      firstPhase := fun _ => rfl
      laterPhase := fun hne => absurd hp hne
      reads := runsOn_append.mpr ⟨hr.reads, hreads, trivial⟩
      owned := fun e' he' byte hb => by
        rcases List.mem_append.mp he' with he' | he'
        · exact (hr.owned e' he' byte hb).mono hheld
        · obtain rfl := List.mem_singleton.mp he'
          exact howned byte hb
      held := fun m hm => by
        rw [actionLocks_append, acquired_append] at hm
        rcases List.mem_append.mp hm with hm | hm
        · exact hheld (hr.held m hm)
        · exact htaken m hm
      unlocks := fun o r he' hwants => by
        rcases List.mem_append.mp he' with he' | he'
        · exact hr.unlocks o r he' hwants
        · exact hunlock o r (List.mem_singleton.mp he').symm hwants
      record := by rw [if_pos hp]; exact hrecord }
  · obtain ⟨hrepeat, hrecord⟩ := hlater hp
    rw [if_neg hp]
    exact {
      after := hafter
      firstPhase := fun hzero => absurd hzero hp
      laterPhase := fun _ => ⟨(hr.laterPhase hp).1, hrepeat⟩
      reads := hr.reads
      owned := fun e' he' byte hb => (hr.owned e' he' byte hb).mono hheld
      held := fun m hm => hheld (hr.held m hm)
      unlocks := hr.unlocks
      record := by rw [if_neg hp]; exact hrecord }

/-- One more access. -/
theorem access {a : Access} (hr : Replays guard i C p l h rest first now)
    (hnext : rest.next (.access a) = some rest')
    (hfirst : p = 0 → Action.ReadsFrom (runWrites (actionWrites now) C) (.access a) ∧
      ∀ byte, a.Touches byte → Owns guard i l.held byte)
    (hlater : p ≠ 0 → now ++ [.access a] <+: first) :
    Replays guard i C p l h rest' (if p = 0 then now ++ [.access a] else first)
      (now ++ [.access a]) := by
  have hlocks : actionLocks (now ++ [.access a]) = actionLocks now := by
    simp [actionLocks, Action.lock?]
  have hrecord := hr.record
  refine hr.extend hnext (Finset.Subset.refl _) (fun hp => ?_) (fun hp => ⟨hlater hp, ?_⟩)
  · obtain ⟨hreads, howned⟩ := hfirst hp
    refine ⟨hreads, howned, fun m hm => absurd hm List.not_mem_nil,
      fun o r he => Action.noConfusion he, ?_⟩
    rw [if_pos hp, hr.firstPhase hp] at hrecord
    rw [hlocks]
    exact hrecord
  · rw [if_neg hp] at hrecord
    rw [hlocks]
    exact hrecord

/-- One more lock operation in phase 0. -/
theorem lockFirst {o : LockOp} {next : Int32 → LockHandler} {real r : Int32}
    (hr : Replays guard i C 0 l h (.lock o next) first now)
    (hrun : o.run b 0 real l = .ok (r, l')) :
    Replays guard i C 0 l' h (next r) (now ++ [.lock o r]) (now ++ [.lock o r]) ∧
      ∀ m, m ∈ l'.held ↔ m ∈ l.held ∨ m ∈ acquired [(o, real)] := by
  obtain rfl := hr.firstPhase rfl
  have htracks := LockOp.run_tracks (le_refl 0) hr.record hrun
  rw [if_pos rfl] at htracks
  have hreply := LockOp.run_first hrun
  have hattempts : attempts [(o, r)] = attempts [(o, real)] := by
    rw [hreply]
    cases hwants : o.wants? <;> simp [attempts, hwants]
  have hheld : ∀ m, m ∈ l'.held ↔ m ∈ l.held ∨ m ∈ acquired [(o, real)] := fun m => by
    rw [LockState.held, htracks.1, heldAfter_append, mem_heldAfter_lockCalls]
    rfl
  refine ⟨?_, hheld⟩
  have hnext : (LockHandler.lock o next).next (.lock o r) = some (next r) := if_pos rfl
  have hsub : l.held ⊆ l'.held := fun m hm => (hheld m).mpr (.inl hm)
  have hextend := hr.extend hnext hsub
  rw [if_pos rfl] at hextend
  refine hextend (fun _ => ⟨trivial, fun byte hb => False.elim hb, ?_, ?_, ?_⟩) (absurd rfl)
  · intro m hm
    have hm : m ∈ acquired [(o, r)] := hm
    rw [acquired, hattempts] at hm
    exact (hheld m).mpr (.inr hm)
  · intro o' r' he hwants
    obtain ⟨rfl, rfl⟩ := Action.lock.inj he
    rw [hreply, hwants]
    rfl
  · have hlog : lockLog [(o, r)] = lockLog [(o, real)] := by rw [lockLog, hattempts, lockLog]
    rw [actionLocks_append, lockLog_append]
    show l'.abuf.Results .uint64 (_ ++ lockLog [(o, r)]) 0
    rw [hlog]
    exact htracks.2

/-- One more lock operation in a later phase: its result is that of phase 0, and it succeeds. -/
theorem lockLater {o : LockOp} {next : Int32 → LockHandler}
    (hr : Replays guard i C p l h (.lock o next) first now) (hp : 0 < p) (real : Int32) :
    ∃ r l', o.run b p real l = .ok (r, l') ∧
      Replays guard i C p l' h (next r) first (now ++ [.lock o r]) ∧ l'.held = l.held := by
  have hne : p ≠ 0 := by omega
  obtain ⟨e, rest', hmem, ⟨post, hpost⟩, hnext', _⟩ :=
    hr.next_of_later hne (fun hd => LockHandler.noConfusion hd)
  obtain ⟨r, rfl⟩ := LockHandler.next_lock hnext'
  have hlog : lockLog (actionLocks first) =
      lockLog (actionLocks now) ++ (lockLog [(o, r)] ++ lockLog (actionLocks post)) := by
    rw [← hpost, actionLocks_append, actionLocks_append, lockLog_append, lockLog_append,
      List.append_assoc]
    rfl
  have hrecord := hr.record
  rw [if_neg hne, hlog] at hrecord
  obtain ⟨l', hrun, hcalls, hrecord'⟩ := LockOp.run_replay (b := b) hp hrecord rfl real
  have hreply : (if o.wants?.isSome then r else 0) = r := by
    cases hwants : o.wants? with
    | some m => rfl
    | none => exact (hr.unlocks o r hmem hwants).symm
  rw [hreply] at hrun
  rw [← hlog] at hrecord'
  have hheld : l'.held = l.held := by rw [LockState.held, hcalls, LockState.held]
  have hnext : (LockHandler.lock o next).next (.lock o r) = some (next r) := if_pos rfl
  have hextend := hr.extend hnext hheld.ge (fun hz => absurd hz hne)
  rw [if_neg hne] at hextend
  refine ⟨r, l', hrun, hextend fun _ => ⟨⟨post, hpost⟩, ?_⟩, hheld⟩
  rw [actionLocks_append, lockLog_append]
  exact hrecord'

/-- The next phase starts over. -/
theorem switch (hr : Replays guard i C p l h .done first now) (hp : 0 ≤ p) :
    Replays guard i C (p + 1) { l with abuf := l.abuf.rewind } h h first [] := by
  have hdone : h.after first = some .done := by
    by_cases hzero : p = 0
    · rw [hr.firstPhase hzero]
      exact hr.after
    · exact (hr.laterPhase hzero).1
  exact {
    after := rfl
    firstPhase := fun hzero => absurd hzero (by omega)
    laterPhase := fun _ => ⟨hdone, List.nil_prefix⟩
    reads := hr.reads
    owned := hr.owned
    held := hr.held
    unlocks := hr.unlocks
    record := by rw [if_neg (by omega)]; exact hr.record.rewind }

/-- Commits of other threads are not noticed. -/
theorem interfere {C' : Mem} (hr : Replays guard i C p l h rest first now)
    (hC : ∀ byte, Owns guard i l.held byte → C' byte = C byte) :
    Replays guard i C' p l h rest first now :=
  { hr with
    reads := hr.reads.congr fun e he byte hb => hC byte (hr.owned e he byte hb) }

/-- A phase at its end has repeated phase 0. -/
theorem eq_of_done (hr : Replays guard i C p l h rest first now) (hdone : p = 0 ∨ rest = .done) :
    now = first := by
  by_cases hp : p = 0
  · exact (hr.firstPhase hp).symm
  obtain rfl := hdone.resolve_left hp
  obtain ⟨hfirst, ⟨post, rfl⟩⟩ := hr.laterPhase hp
  rw [LockHandler.after_append, hr.after, Option.bind_some] at hfirst
  cases post with
  | nil => simp
  | cons e post => cases e <;> cases hfirst

end Replays

end LibSei
