-- SUMMARY: A handler that is run in mini traversals makes the lock calls of a plain run, each once, and leaves the memory of a plain run.
import LibSei.Properties.Transparency
import LibSei.Tmi.MiniTraversals

/-!
# Mini traversals and plain runs

A piece of a handler is executed twice, and the lock operations between the pieces are made once.
The plain thread that a hardened one is compared with is ahead of it in the second phase: it has
already reached the end of the piece.
-/

namespace LibSei

open Memory Control

/-! ## The operations of a piece -/

/-- The operations that actions are to the library. -/
def actionCalls (es : List Action) : List Call :=
  (es.filterMap Action.access?).filterMap Access.toCall?

@[simp] theorem actionCalls_append {es ds : List Action} :
    actionCalls (es ++ ds) = actionCalls es ++ actionCalls ds := by
  simp [actionCalls]

/-- A handler that makes the writes of a run. -/
def writer : List Action → AllocHandler
  | [] => .done
  | .access (.write t addr value) :: es => .write t addr value (writer es)
  | _ :: es => writer es

section Writer

variable {env : Env} {b : Build} {es : List Action} {w : World}

theorem exec_writer (es : List Action) (mem : Mem) (k : Nat) :
    ((writer es).exec env mem k).filterMap AllocAccess.toCall? = actionCalls es := by
  induction es generalizing mem with
  | nil => rfl
  | cons e es ih =>
    cases e with
    | lock o r => exact ih mem
    | access a =>
      cases a with
      | read t addr v => exact ih mem
      | write t addr value => exact congrArg (Call.write t addr value :: ·) (ih _)

theorem calls_writer (es : List Action) (w : World) : (writer es).calls env w = actionCalls es :=
  exec_writer es w.mem w.machine.nalloc

theorem toWrite_actionCalls {c : Call} (hc : c ∈ actionCalls es) :
    ∃ t addr v, c = .write t addr v := by
  obtain ⟨a, _, ha⟩ := List.mem_filterMap.mp hc
  cases a with
  | read t addr v => cases ha
  | write t addr v => exact ⟨t, addr, v, (Option.some.inj ha).symm⟩

theorem frees_writer (es : List Action) (w : World) : (writer es).frees env w = [] := by
  rw [AllocHandler.frees, calls_writer]
  refine List.filterMap_eq_nil_iff.mpr fun c hc => ?_
  obtain ⟨t, addr, v, rfl⟩ := toWrite_actionCalls hc
  rfl

theorem fits_writer (es : List Action) (w : World) : (writer es).Fits env ∅ w := by
  have hblocks : (writer es).blocks env w = [] := by
    rw [AllocHandler.blocks, AllocHandler.accesses, AllocHandler.filterMap_malloced, exec_writer]
    have hrequests : requests (actionCalls es) = [] := by
      refine List.filterMap_eq_nil_iff.mpr fun c hc => ?_
      obtain ⟨t, addr, v, rfl⟩ := toWrite_actionCalls hc
      rfl
    rw [hrequests]
    rfl
  refine ⟨?_, ?_, ⟨?_, ?_, ?_⟩, ?_, ?_⟩
  all_goals simp [hblocks, frees_writer, tallocMaxAllocs]

end Writer

/-! ## A piece -/

namespace LockHandler

/-- The handler has come to the end of a piece. -/
def Stops (mode : MtlMode) : LockHandler → Prop
  | .done => True
  | .lock o _ => mode.ends o = true
  | _ => False

end LockHandler

/-- The writes can be compared at the end of a piece: they go to locations of one width, and not too
often to the same ones. -/
structure Comparable (ws : List Write) : Prop where
  width : OneWidth ws
  repeats : ws.length ≤ (shapes ws).dedup.length + abufMaxConflicts

/-- Phase `k` of a piece that began in `w0`, after the actions `now` in this phase and `first` in
phase 0. The plain thread has made the actions of phase 0. -/
structure Piece (env : Env) (b : Build) (mode : MtlMode) (w0 : World) (k : Nat)
    (first now : List Action) (t : Mtl) (p : PlainThread) : Prop where
  waiting : w0.Waiting b
  world : World.inPhase env b (fun _ => actionCalls first) w0 k (actionCalls now) = .ok t.world
  runs : RunsOn w0.mem first
  inside : ∀ o r, .lock o r ∈ first → mode.ends o = false
  rest : ∃ h, t.rest = some h ∧ t.start.after now = some h
  log : t.locks.abuf.Results .uint64 (lockLog (actionLocks first))
    (if k = 0 then 0 else (lockLog (actionLocks now)).length)
  mem : p.mem = runWrites (actionWrites first) w0.mem
  since : p.since = actionWrites first
  calls : p.calls = t.locks.calls
  reached : ∃ h, p.rest = some h ∧ t.start.after first = some h

/-- How the plain thread stands to the hardened one: at the same point of a piece, at its end while
the piece is repeated, or at the end of the handler. The plain thread waits for at most `n` steps. -/
inductive Follows (env : Env) (b : Build) (mode : MtlMode) : Nat → Mtl → PlainThread → Prop where
  | first {w0 now t p} (hp : Piece env b mode w0 0 now now t p) :
      Follows env b mode (now.length + 1) t p
  | second {w0 now todo t p g} (hp : Piece env b mode w0 1 (now ++ todo) now t p)
      (hreached : p.rest = some g) (hstops : g.Stops mode) : Follows env b mode todo.length t p
  | left {t p} (hrest : t.rest = none) (hp : p.rest = none) (hmem : t.world.mem = p.mem)
      (hcalls : p.calls = t.locks.calls) : Follows env b mode 0 t p

/-- Whatever the outside does, the thread is not stopped and leaves the handler after some steps. -/
inductive Mtl.Finishes (env : Env) (b : Build) (mode : MtlMode) : Mtl → Prop where
  | left {t} (hrest : t.rest = none) : Finishes env b mode t
  | step {t} (hgoes : ∀ x, ∃ t', t.step env b mode x = .ok t')
      (h : ∀ x t', t.step env b mode x = .ok t' → Finishes env b mode t') : Finishes env b mode t

/-- What a handler may go on with after its first operation. -/
def LockHandler.Child (h' : LockHandler) : LockHandler → Prop
  | .done => False
  | .read _ _ next => ∃ v, h' = next v
  | .write _ _ _ next => h' = next
  | .lock _ next => ∃ r, h' = next r

theorem LockHandler.child_wellFounded : WellFounded LockHandler.Child := by
  refine ⟨fun h => ?_⟩
  induction h with
  | done => exact ⟨_, fun h' hc => hc.elim⟩
  | read ty addr next ih => exact ⟨_, fun h' ⟨v, hv⟩ => hv ▸ ih v⟩
  | write ty addr value next ih => exact ⟨_, fun h' (hc : h' = next) => hc ▸ ih⟩
  | lock o next ih => exact ⟨_, fun h' ⟨r, hr⟩ => hr ▸ ih r⟩

/-- What follows on a commit at the end of a piece. -/
def Mtl.past (x : Outside) : LockHandler → Mtl → Mtl
  | .lock o next, t => t.resume x o next
  | _, t => { t with rest := none }

section Steps

variable {env : Env} {b : Build} {mode : MtlMode} {w0 w w' : World} {k n : Nat}
  {first now todo : List Action} {t t' : Mtl} {p : PlainThread} {x : Outside} {h : LockHandler}
  {phases : Nat → List Call} {cs : List Call} {c : Call}

theorem piece_begin {locks : LockState} (hw : w0.Waiting b) (hlocks : locks.abuf.Empty)
    (h : LockHandler) :
    Piece env b mode w0 0 [] [] (Mtl.begin w0 locks h)
      (PlainThread.begin w0.mem locks.calls h) where
  waiting := hw
  world := rfl
  runs := trivial
  inside o r hmem := by cases hmem
  rest := ⟨h, rfl, rfl⟩
  log := hlocks.results
  mem := rfl
  since := rfl
  calls := rfl
  reached := ⟨h, rfl, rfl⟩

theorem LockHandler.after_snoc {g h' : LockHandler} {e : Action} (hnow : g.after now = some h)
    (hnext : h.next e = some h') : g.after (now ++ [e]) = some h' := by
  rw [LockHandler.after_append, hnow, Option.bind_some, LockHandler.after_cons, hnext]
  rfl

theorem Piece.level (hp : Piece env b mode w0 k first now t p) (hb : b.redundancy = 2) :
    w0.sei.redundancyLevel = 2 := by
  have htwo := hp.waiting.ready.two_le
  have hle := hp.waiting.ready.le
  omega

theorem Piece.inPhase (hp : Piece env b mode w0 k first now t p) (hb : b.redundancy = 2) (hk : k < 2) :
    World.InPhase w0 2 (fun _ => actionWrites first) k (actionWrites now) t.world := by
  have hlevel := hp.level hb
  rw [← hlevel]
  exact hp.waiting.ready.inPhase (by omega) hp.world

theorem Piece.rest_eq (hp : Piece env b mode w0 k first now t p) (hrest : t.rest = some h) :
    t.start.after now = some h := by
  obtain ⟨h', hrest', hafter⟩ := hp.rest
  rw [hrest] at hrest'
  rwa [Option.some.inj hrest']

/-! ## The first phase -/

/-- In phase 0 the plain thread is where the hardened one is. -/
theorem Piece.same_rest (hp : Piece env b mode w0 0 now now t p) (hrest : t.rest = some h) :
    p.rest = some h := by
  obtain ⟨h', hp', hafter⟩ := hp.reached
  rw [hp.rest_eq hrest] at hafter
  rwa [Option.some.inj hafter]

theorem Piece.mem_first (hp : Piece env b mode w0 0 now now t p) (hb : b.redundancy = 2) :
    t.world.mem = p.mem :=
  (hp.inPhase hb (by decide)).mem.trans hp.mem.symm

theorem Piece.advance_first {e : Action} {h' : LockHandler} {p' : PlainThread}
    (hp : Piece env b mode w0 0 now now t p) (hrest : t.rest = some h) (hnext : h.next e = some h')
    (hreads : e.ReadsFrom p.mem) (hinside : ∀ o r, e = .lock o r → mode.ends o = false)
    (hworld : World.calls env b (actionCalls [e]) t.world = .ok t'.world)
    (hlog : t'.locks.abuf.Results .uint64 (lockLog (actionLocks now) ++ lockLog (actionLocks [e])) 0)
    (hstart : t'.start = t.start) (hrest' : t'.rest = some h')
    (hmem : p'.mem = runWrites (actionWrites [e]) p.mem) (hsince : p'.since = p.since ++ actionWrites [e])
    (hcalls : p'.calls = t'.locks.calls) (hreached : p'.rest = some h') :
    Piece env b mode w0 0 (now ++ [e]) (now ++ [e]) t' p' where
  waiting := hp.waiting
  world := by rw [actionCalls_append]; exact World.inPhase_append hp.world hworld
  runs := runsOn_append.mpr ⟨hp.runs, hp.mem ▸ hreads, trivial⟩
  inside o r hmem := by
    rcases List.mem_append.mp hmem with hmem | hmem
    · exact hp.inside o r hmem
    · exact hinside o r (List.mem_singleton.mp hmem).symm
  rest := ⟨h', hrest', hstart ▸ LockHandler.after_snoc (hp.rest_eq hrest) hnext⟩
  log := by rwa [actionLocks_append, lockLog_append]
  mem := by rw [hmem, actionWrites_append, runWrites_append, hp.mem]
  since := by rw [hsince, actionWrites_append, hp.since]
  calls := hcalls
  reached := ⟨h', hreached, hstart ▸ LockHandler.after_snoc (hp.rest_eq hrest) hnext⟩

theorem Piece.advance_second {e : Action} {h' : LockHandler}
    (hp : Piece env b mode w0 1 first now t p) (hrest : t.rest = some h) (hnext : h.next e = some h')
    (hworld : World.calls env b (actionCalls [e]) t.world = .ok t'.world)
    (hlog : t'.locks.abuf.Results .uint64 (lockLog (actionLocks first))
      (lockLog (actionLocks now) ++ lockLog (actionLocks [e])).length)
    (hstart : t'.start = t.start) (hrest' : t'.rest = some h') (hcalls : t'.locks.calls = t.locks.calls) :
    Piece env b mode w0 1 first (now ++ [e]) t' p :=
  { hp with
    world := by rw [actionCalls_append]; exact World.inPhase_append hp.world hworld
    rest := ⟨h', hrest', hstart ▸ LockHandler.after_snoc (hp.rest_eq hrest) hnext⟩
    log := by rw [actionLocks_append, lockLog_append]; exact hlog
    calls := hp.calls.trans hcalls.symm
    reached := hstart ▸ hp.reached }

/-- A lock operation that does not end the piece. -/
theorem LockHandler.wants_of_not_stops {o : LockOp} {next : Int32 → LockHandler}
    (hgo : ¬ (LockHandler.lock o next).Stops mode) :
    mode = .mtl ∧ mode.ends o = false ∧ ∃ m, o.wants? = some m := by
  cases mode with
  | mtl2 => exact absurd rfl hgo
  | mtl =>
    cases o with
    | unlock m => exact absurd rfl hgo
    | lock m => exact ⟨rfl, rfl, m, rfl⟩
    | trylock m => exact ⟨rfl, rfl, m, rfl⟩

/-- Such an operation is made as under two-phase locking. -/
theorem Mtl.step_lock {o : LockOp} {next : Int32 → LockHandler} {r : Int32} {locks : LockState}
    (hrest : t.rest = some (.lock o next)) (hgo : ¬ (LockHandler.lock o next).Stops mode)
    (hrun : o.run b t.world.sei.p x.real t.locks = .ok (r, locks)) :
    t.step env b mode x = .ok { t with locks := locks, rest := some (next r) } := by
  obtain ⟨rfl, hends, m, hwants⟩ := LockHandler.wants_of_not_stops hgo
  have hcall : MtlMode.call .mtl b t.world.sei.p o x.real t.locks = .ok (r, locks) := by
    cases o with
    | unlock m => cases hwants
    | lock m => exact hrun
    | trylock m => exact hrun
  simp only [Mtl.step, hrest, hends, Bool.false_eq_true, false_and, if_false, hcall, ok_bind]
  rfl

/-- In phase 0 the mutex is asked for and the answer recorded. -/
theorem LockOp.run_take {o : LockOp} {m : Nat} {s : LockState} {l : List (Nat × Nat)}
    (hwants : o.wants? = some m) (real : Int32) (hlog : s.abuf.Results .uint64 l 0) :
    ∃ s', o.run b 0 real s = .ok (real, s') ∧
      s'.abuf.Results .uint64 (l ++ lockLog [(o, real)]) 0 ∧ s'.calls = s.calls ++ [o.made real] := by
  have hpush := hlog.push m real.toInt64.toUInt64.toNat
  cases o with
  | unlock m => cases hwants
  | lock m =>
    cases hwants
    exact ⟨_, rfl, hpush, rfl⟩
  | trylock m =>
    cases hwants
    exact ⟨_, rfl, hpush, rfl⟩

/-- Phase 0 makes the operations that the plain thread makes. -/
theorem Piece.step_first (hp : Piece env b mode w0 0 now now t p) (hb : b.redundancy = 2)
    (hrest : t.rest = some h) (hgo : ¬ h.Stops mode) (x : Outside) :
    ∃ t' e, t.step env b mode x = .ok t' ∧
      Piece env b mode w0 0 (now ++ [e]) (now ++ [e]) t' (p.step mode x) := by
  have hmem := hp.mem_first hb
  have hin := hp.inPhase hb (by decide)
  have hsame := hp.same_rest hrest
  have hlog : t.locks.abuf.Results .uint64 (lockLog (actionLocks now)) 0 := hp.log
  cases h with
  | done => exact absurd trivial hgo
  | read ty addr next =>
    refine ⟨{ t with rest := some (next (load p.mem addr ty.sizeof)) },
      .access (.read ty addr (load p.mem addr ty.sizeof)), ?_, ?_⟩
    · simp only [Mtl.step, hrest, World.read, hmem]
      rfl
    · have hplain : p.step mode x = { p with rest := some (next (load p.mem addr ty.sizeof)) } := by
        simp only [PlainThread.step, hsame]
      rw [hplain]
      exact hp.advance_first hrest (if_pos ⟨rfl, rfl⟩) rfl (fun _ _ he => by cases he) rfl
        ((List.append_nil _).symm ▸ hlog) rfl rfl rfl (List.append_nil _).symm hp.calls rfl
  | write ty addr value next =>
    have hwrite := World.write_eq hin.p (hb ▸ Nat.zero_lt_two) ty addr value
    refine ⟨{ t with world := t.world.logWrite 0 ty addr value, rest := some next },
      .access (.write ty addr value), ?_, ?_⟩
    · simp only [Mtl.step, hrest, hwrite]
      rfl
    · have hplain : p.step mode x = { p with
          mem := store p.mem addr ty.sizeof value
          since := p.since ++ writesOf [.write ty addr value]
          rest := some next } := by
        simp only [PlainThread.step, hsame]
      have hcalls : World.calls env b [.write ty addr value] t.world =
          .ok (t.world.logWrite 0 ty addr value) := by
        rw [World.calls, World.call, hwrite]
        rfl
      rw [hplain]
      exact hp.advance_first hrest (if_pos ⟨rfl, rfl, rfl⟩) trivial (fun _ _ he => by cases he) hcalls
        ((List.append_nil _).symm ▸ hlog) rfl rfl (apply_toWrite rfl p.mem).symm rfl hp.calls rfl
  | lock o next =>
    obtain ⟨_, hends, m, hwants⟩ := LockHandler.wants_of_not_stops hgo
    obtain ⟨locks, hrun, hlog', hcalls⟩ := LockOp.run_take (b := b) hwants x.real hlog
    refine ⟨{ t with locks := locks, rest := some (next x.real) }, .lock o x.real, ?_, ?_⟩
    · have hzero : t.world.sei.p = 0 := hin.p
      exact Mtl.step_lock hrest hgo (by rw [hzero, hrun])
    · have hplain : p.step mode x =
          { p with calls := p.calls ++ [o.made x.real], rest := some (next x.real) } := by
        simp only [PlainThread.step, hsame, hends]
        rfl
      rw [hplain]
      exact hp.advance_first hrest (if_pos rfl) trivial (fun _ _ he => by cases he; exact hends) rfl
        hlog' rfl rfl rfl (List.append_nil _).symm (by rw [hp.calls, hcalls]) rfl

/-- At its end phase 0 is left, and the piece is resumed where it began. -/
theorem Piece.switch (hp : Piece env b mode w0 0 now now t p) (hb : b.redundancy = 2) :
    ∃ t', t.seiCommit env b = .ok (false, t') ∧ Piece env b mode w0 1 now [] t' p := by
  have hin := hp.inPhase hb (by decide)
  obtain ⟨w, hswitch⟩ : ∃ w, t.world.switch env b = .ok w :=
    hin.exists_switch env (by decide) hb.ge (sized_actionWrites now)
  have hzero : t.world.sei.p = 0 := hin.p
  refine ⟨{ t with world := w, rest := some t.start }, ?_, ?_⟩
  · rw [Mtl.seiCommit, if_pos hzero, hswitch, ok_bind]
    rfl
  · have hcalls : World.calls env b (actionCalls now) w0.beginPhase = .ok t.world := hp.world
    have hworld : World.inPhase env b (fun _ => actionCalls now) w0 1 [] = .ok w := by
      simp only [World.inPhase, World.phaseStart, pure_eq_ok, ok_bind, hcalls, hswitch]
      rfl
    exact { hp with
      world := hworld
      rest := ⟨t.start, rfl, rfl⟩ }

/-! ## The second phase -/

/-- In phase 1 the handler has to make the actions that phase 0 made. -/
theorem Piece.next_action (hp : Piece env b mode w0 1 (now ++ todo) now t p) (hrest : t.rest = some h)
    (hgo : ¬ h.Stops mode) {g : LockHandler} (hreached : p.rest = some g) (hstops : g.Stops mode) :
    ∃ e ds h', todo = e :: ds ∧ h.next e = some h' := by
  obtain ⟨g', hg', hafter⟩ := hp.reached
  rw [hreached] at hg'
  obtain rfl := Option.some.inj hg'
  rw [LockHandler.after_append, hp.rest_eq hrest, Option.bind_some] at hafter
  cases todo with
  | nil =>
    cases hafter
    exact absurd hstops hgo
  | cons e ds =>
    rw [LockHandler.after_cons, Option.bind_eq_some_iff] at hafter
    obtain ⟨h', hnext, _⟩ := hafter
    exact ⟨e, ds, h', rfl, hnext⟩

/-- Phase 1 makes the operations of phase 0. -/
theorem Piece.step_second (hp : Piece env b mode w0 1 (now ++ todo) now t p) (hb : b.redundancy = 2)
    (hrest : t.rest = some h) (hgo : ¬ h.Stops mode) {g : LockHandler} (hreached : p.rest = some g)
    (hstops : g.Stops mode) (x : Outside) :
    ∃ t' e ds, t.step env b mode x = .ok t' ∧ todo = e :: ds ∧
      Piece env b mode w0 1 (now ++ todo) (now ++ [e]) t' p := by
  have hin := hp.inPhase hb (by decide)
  obtain ⟨e, ds, h', rfl, hnext⟩ := hp.next_action hrest hgo hreached hstops
  obtain ⟨_, hreads, _⟩ := runsOn_append.mp hp.runs
  rw [← hin.mem] at hreads
  have hlog : t.locks.abuf.Results .uint64 (lockLog (actionLocks (now ++ e :: ds)))
    (lockLog (actionLocks now)).length := hp.log
  cases h with
  | done => exact absurd trivial hgo
  | read ty addr next =>
    obtain ⟨v, rfl, rfl⟩ := LockHandler.next_read hnext
    refine ⟨{ t with rest := some (next v) }, _, ds, ?_, rfl, ?_⟩
    · simp only [Mtl.step, hrest, World.read]
      rw [show load t.world.mem addr ty.sizeof = v from hreads.symm]
      rfl
    · exact hp.advance_second hrest hnext rfl ((List.append_nil _).symm ▸ hlog) rfl rfl rfl
  | write ty addr value next =>
    obtain rfl := LockHandler.next_write hnext
    have hwrite := World.write_eq hin.p (hb ▸ Nat.one_lt_two) ty addr value
    have hcalls : World.calls env b [.write ty addr value] t.world =
        .ok (t.world.logWrite 1 ty addr value) := by
      rw [World.calls, World.call, hwrite]
      rfl
    refine ⟨{ t with world := t.world.logWrite 1 ty addr value, rest := some next }, _, ds, ?_, rfl, ?_⟩
    · simp only [Mtl.step, hrest, hwrite]
      rfl
    · exact hp.advance_second hrest (if_pos ⟨rfl, rfl, rfl⟩) hcalls
        ((List.append_nil _).symm ▸ hlog) rfl rfl rfl
  | lock o next =>
    obtain ⟨r, rfl⟩ := LockHandler.next_lock hnext
    obtain ⟨_, hends, m, hwants⟩ := LockHandler.wants_of_not_stops hgo
    have hsplit : lockLog (actionLocks (now ++ .lock o r :: ds)) =
        lockLog (actionLocks now) ++ (lockLog [(o, r)] ++ lockLog (actionLocks ds)) := by
      rw [List.append_cons]
      simp only [actionLocks_append, lockLog_append, List.append_assoc]
      rfl
    rw [hsplit] at hlog
    have hone : t.world.sei.p = 1 := hin.p
    obtain ⟨locks, hrun, hcalls, hlog'⟩ :=
      LockOp.run_replay (b := b) (p := 1) (by decide) hlog rfl x.real
    rw [hwants] at hrun
    refine ⟨{ t with locks := locks, rest := some (next r) }, _, ds, ?_, rfl, ?_⟩
    · exact Mtl.step_lock hrest hgo (by rw [hone, hrun]; rfl)
    · rw [← hsplit] at hlog'
      exact hp.advance_second hrest (if_pos rfl) rfl hlog' rfl rfl hcalls

/-- At the end of phase 1 nothing is left to repeat, and the plain thread stands at the same
operation. -/
theorem Piece.todo_nil (hp : Piece env b mode w0 1 (now ++ todo) now t p) (hrest : t.rest = some h)
    (hstops : h.Stops mode) : todo = [] ∧ p.rest = some h := by
  obtain ⟨g, hg, hafter⟩ := hp.reached
  rw [LockHandler.after_append, hp.rest_eq hrest, Option.bind_some] at hafter
  cases todo with
  | nil =>
    cases hafter
    exact ⟨rfl, hg⟩
  | cons e ds =>
    rw [LockHandler.after_cons, Option.bind_eq_some_iff] at hafter
    obtain ⟨h', hnext, _⟩ := hafter
    cases h with
    | done => cases hnext
    | read ty addr next => exact hstops.elim
    | write ty addr value next => exact hstops.elim
    | lock o next =>
      obtain ⟨r, rfl⟩ := LockHandler.next_lock hnext
      have hends := hp.inside o r (List.mem_append_right _ List.mem_cons_self)
      exact absurd (hstops.symm.trans hends) (by decide)

/-! ## Commit -/

theorem Piece.finalPhase (hp : Piece env b mode w0 1 now now t p) (hb : b.redundancy = 2) :
    World.finalPhase env b (fun _ => (writer now).calls env w0) w0 = .ok t.world := by
  rw [World.finalPhase, hp.level hb, calls_writer]
  exact hp.world

/-- The commit of a piece leaves the memory of the plain thread, and the library ready for the next
piece. -/
theorem Piece.committed {r : Bool} (hp : Piece env b mode w0 1 now now t p) (hb : b.redundancy = 2)
    (hiso : b.cpuIsolation = false) (hcommit : t.seiCommit env b = .ok (r, t')) :
    r = true ∧ t'.world.Waiting b ∧ t'.world.mem = p.mem ∧ t'.locks.abuf.Empty ∧
      t'.locks.calls = t.locks.calls := by
  have hin := hp.inPhase hb (by decide)
  have hone : t.world.sei.p = 1 := hin.p
  have hfinal := hp.finalPhase hb
  rw [Mtl.seiCommit, if_neg (by omega)] at hcommit
  simp only [bind_eq_ok, pure_eq_ok, Except.ok.injEq, Prod.mk.injEq] at hcommit
  obtain ⟨w, hw, _, _, rfl, rfl⟩ := hcommit
  have hdone : World.Committed env b t.world w := .inl ⟨hiso, hw⟩
  refine ⟨rfl, hp.waiting.committed hfinal hdone, ?_, Abuf.empty_clean _, rfl⟩
  have hlevel := hp.level hb
  have hequal := hp.waiting.equalPhases hfinal
  have hfrees : t.world.sei.tbin.nitems 0 = 0 := by
    rw [(hequal.trashed 0 (by omega)).nitems, frees_writer]
    rfl
  have hmachine := hdone.machine (hequal.deferred 0 (by omega)) hfrees
  show w.machine.mem = p.mem
  rw [hmachine, hp.mem]
  exact hin.mem

theorem Piece.exists_commit (hp : Piece env b mode w0 1 now now t p) (hb : b.redundancy = 2)
    (hiso : b.cpuIsolation = false) (hcomparable : Comparable p.since) :
    ∃ t', t.seiCommit env b = .ok (true, t') := by
  have hin := hp.inPhase hb (by decide)
  have hone : t.world.sei.p = 1 := hin.p
  have hlevel := hp.level hb
  have hwrites : writesOf ((writer now).operations env w0.machine) = p.since := by
    rw [hp.since, AllocHandler.operations]
    exact congrArg writesOf (exec_writer now w0.mem w0.machine.nalloc)
  have hadmissible : (writer now).Admissible env b w0.sei.redundancyLevel w0.machine := {
    compared := .inr (.inl (hlevel.trans hb.symm))
    fits := fits_writer now ⟨Sei.init b, w0.machine⟩
    width := hwrites ▸ hcomparable.width
    repeats := hwrites ▸ hcomparable.repeats }
  obtain ⟨w, hcommit⟩ := (hp.waiting.committable hadmissible (hp.finalPhase hb)).exists_committed
  have hw : t.world.commit env b = .ok w := by
    rcases hcommit with ⟨_, hw⟩ | ⟨hiso', _⟩
    · exact hw
    · exact absurd (hiso.symm.trans hiso') (by decide)
  have hsize : t.locks.abuf.size = 0 := by
    have hlog := hp.log
    rw [Abuf.size, hlog.poped, hlog.holds.pushed]
    simp
  rw [Mtl.seiCommit, if_neg (by omega), hw, ok_bind, Build.assert_of hsize, ok_bind]
  exact ⟨_, rfl⟩

/-! ## Whole runs -/

theorem Mtl.step_stops (hrest : t.rest = some h) (hstops : h.Stops mode)
    (hp : t.world.sei.p = 0 ∨ t.world.sei.p = 1) :
    t.step env b mode x = (do
      let (returned, t') ← t.seiCommit env b
      return if returned then t'.past x h else t') := by
  cases h with
  | done => simp only [Mtl.step, hrest, Mtl.past]
  | read ty addr next => exact hstops.elim
  | write ty addr value next => exact hstops.elim
  | lock o next =>
    have hends : mode.ends o = true := hstops
    simp only [Mtl.step, hrest, hends, true_and, if_pos hp, Mtl.past]

/-- The next piece begins where the plain thread goes on. -/
theorem World.Waiting.past (hw : t.world.Waiting b) (hlocks : t.locks.abuf.Empty)
    (hmem : t.world.mem = p.mem) (hcalls : t.locks.calls = p.calls) (hrest : p.rest = some h)
    (hstops : h.Stops mode) : ∃ m, Follows env b mode m (t.past x h) (p.step mode x) := by
  cases h with
  | done =>
    simp only [PlainThread.step, hrest]
    exact ⟨_, .left rfl rfl hmem hcalls.symm⟩
  | read ty addr next => exact hstops.elim
  | write ty addr value next => exact hstops.elim
  | lock o next =>
    have hends : mode.ends o = true := hstops
    simp only [PlainThread.step, hrest, hends, if_true, ← hmem, ← hcalls]
    have hnext : (Mtl.prepareNm
        { t.world with machine := { t.world.machine with mem := x.others t.world.mem } }).Waiting b :=
      { hw with
        ready := { hw.ready with }
        clean := { hw.clean with }
        message := ⟨rfl, rfl, rfl, rfl⟩ }
    have hempty : (t.locks.really (o.made x.real)).abuf.Empty := hlocks
    exact ⟨_, .first (piece_begin hnext hempty _)⟩

/-- Unless a piece is committed, the thread is not stopped, and its step is a step of the plain thread
or one for which the plain thread waits. -/
theorem Follows.step_or_commits (hb : b.redundancy = 2) (hfollows : Follows env b mode n t p)
    (x : Outside) :
    (∃ t', t.step env b mode x = .ok t' ∧
      ((∃ m < n, Follows env b mode m t' p) ∨ ∃ m, Follows env b mode m t' (p.step mode x))) ∨
    ∃ w0 now h, Piece env b mode w0 1 now now t p ∧ t.rest = some h ∧ h.Stops mode ∧
      p.rest = some h := by
  cases hfollows with
  | left hrest hp hmem hcalls =>
    have hstays : p.step mode x = p := by simp only [PlainThread.step, hp]
    refine .inl ⟨t, by simp only [Mtl.step, hrest]; rfl, .inr ⟨0, ?_⟩⟩
    rw [hstays]
    exact .left hrest hp hmem hcalls
  | @first _ now _ _ hp =>
    obtain ⟨h, hrest, _⟩ := hp.rest
    by_cases hstops : h.Stops mode
    · obtain ⟨t1, hcommit, hp1⟩ := hp.switch hb
      rw [← List.nil_append now] at hp1
      refine .inl ⟨t1, ?_, .inl ⟨_, Nat.lt_succ_self _, .second hp1 (hp.same_rest hrest) hstops⟩⟩
      rw [Mtl.step_stops hrest hstops (.inl (hp.inPhase hb (by decide)).p), hcommit]
      rfl
    · obtain ⟨t1, e, hrun, hp1⟩ := hp.step_first hb hrest hstops x
      exact .inl ⟨t1, hrun, .inr ⟨_, .first hp1⟩⟩
  | second hp hreached hreachedStops =>
    obtain ⟨h, hrest, _⟩ := hp.rest
    by_cases hstops : h.Stops mode
    · obtain ⟨rfl, hsame⟩ := hp.todo_nil hrest hstops
      rw [List.append_nil] at hp
      exact .inr ⟨_, _, h, hp, hrest, hstops, hsame⟩
    · obtain ⟨t1, e, ds, hrun, rfl, hp1⟩ := hp.step_second hb hrest hstops hreached hreachedStops x
      rw [List.append_cons] at hp1
      exact .inl ⟨t1, hrun, .inl ⟨_, Nat.lt_succ_self _, .second hp1 hreached hreachedStops⟩⟩

/-- A step of the hardened thread is a step of the plain one, or one for which the plain one
waits. -/
theorem Follows.step (hb : b.redundancy = 2) (hiso : b.cpuIsolation = false)
    (hfollows : Follows env b mode n t p) (hstep : t.step env b mode x = .ok t') :
    (∃ m < n, Follows env b mode m t' p) ∨ ∃ m, Follows env b mode m t' (p.step mode x) := by
  rcases hfollows.step_or_commits hb x with ⟨t1, hrun, hnext⟩ | ⟨w0, now, h, hp, hrest, hstops, hsame⟩
  · rw [hrun] at hstep
    cases hstep
    exact hnext
  · rw [Mtl.step_stops hrest hstops (.inr (hp.inPhase hb (by decide)).p), bind_eq_ok] at hstep
    obtain ⟨⟨r, t1⟩, hcommit, hstep⟩ := hstep
    obtain ⟨rfl, hwaiting, hmem, hlocks, hcalls⟩ := hp.committed hb hiso hcommit
    cases hstep
    exact .inr (hwaiting.past hlocks hmem (hcalls.trans hp.calls.symm) hsame hstops)

/-- Only a comparison can stop the thread. -/
theorem Follows.progress (hb : b.redundancy = 2) (hiso : b.cpuIsolation = false)
    (hfollows : Follows env b mode n t p) (hcomparable : Comparable p.since) (x : Outside) :
    ∃ t', t.step env b mode x = .ok t' := by
  rcases hfollows.step_or_commits hb x with ⟨t1, hrun, _⟩ | ⟨w0, now, h, hp, hrest, hstops, _⟩
  · exact ⟨t1, hrun⟩
  · obtain ⟨t1, hcommit⟩ := hp.exists_commit hb hiso hcomparable
    rw [Mtl.step_stops hrest hstops (.inr (hp.inPhase hb (by decide)).p), hcommit, ok_bind]
    exact ⟨_, rfl⟩

theorem Follows.run (hb : b.redundancy = 2) (hiso : b.cpuIsolation = false) {xs : List Outside}
    (hfollows : Follows env b mode n t p) (hrun : Mtl.run env b mode xs t = .ok t') :
    ∃ ys m, ys.Sublist xs ∧ Follows env b mode m t' (p.run mode ys) := by
  induction xs generalizing n t p with
  | nil =>
    cases hrun
    exact ⟨[], n, List.Sublist.refl _, hfollows⟩
  | cons x xs ih =>
    rw [Mtl.run, bind_eq_ok] at hrun
    obtain ⟨t1, hstep, hrun⟩ := hrun
    rcases hfollows.step hb hiso hstep with ⟨_, _, h1⟩ | ⟨_, h1⟩
    · obtain ⟨ys, m, hsub, h'⟩ := ih h1 hrun
      exact ⟨ys, m, hsub.cons x, h'⟩
    · obtain ⟨ys, m, hsub, h'⟩ := ih h1 hrun
      exact ⟨x :: ys, m, hsub.cons_cons x, h'⟩

theorem Follows.calls (hfollows : Follows env b mode n t p) : t.locks.calls = p.calls := by
  cases hfollows with
  | first hp => exact hp.calls.symm
  | second hp _ _ => exact hp.calls.symm
  | left _ _ _ hcalls => exact hcalls.symm

theorem Follows.rest_none (hfollows : Follows env b mode n t p) : t.rest = none ↔ p.rest = none := by
  cases hfollows with
  | first hp =>
    obtain ⟨_, ht, _⟩ := hp.rest
    obtain ⟨_, hp, _⟩ := hp.reached
    simp [ht, hp]
  | second hp hreached _ =>
    obtain ⟨_, ht, _⟩ := hp.rest
    simp [ht, hreached]
  | left hrest hp _ _ => simp [hrest, hp]

theorem Follows.mem (hfollows : Follows env b mode n t p) (hrest : t.rest = none) :
    t.world.mem = p.mem := by
  cases hfollows with
  | first hp =>
    obtain ⟨_, hsome, _⟩ := hp.rest
    cases hrest.symm.trans hsome
  | second hp _ _ =>
    obtain ⟨_, hsome, _⟩ := hp.rest
    cases hrest.symm.trans hsome
  | left _ _ hmem _ => exact hmem

theorem PlainThread.step_rest (mode : MtlMode) (x : Outside) (hrest : p.rest = some h) :
    (p.step mode x).rest = none ∨ ∃ h', h'.Child h ∧ (p.step mode x).rest = some h' := by
  cases h with
  | done => exact .inl (by simp only [PlainThread.step, hrest])
  | read ty addr next =>
    exact .inr ⟨next (load p.mem addr ty.sizeof), ⟨_, rfl⟩, by simp only [PlainThread.step, hrest]⟩
  | write ty addr value next => exact .inr ⟨next, rfl, by simp only [PlainThread.step, hrest]⟩
  | lock o next =>
    refine .inr ⟨next x.real, ⟨_, rfl⟩, ?_⟩
    simp only [PlainThread.step, hrest]
    split <;> rfl

/-- The handler comes to its end: the plain thread waits for finitely many steps, and every step it
makes leaves it a smaller handler. -/
theorem Follows.finishes (hb : b.redundancy = 2) (hiso : b.cpuIsolation = false)
    (hrest : p.rest = some h) (hfollows : Follows env b mode n t p)
    (hcomparable : ∀ ys, Comparable (p.run mode ys).since) : Mtl.Finishes env b mode t := by
  induction h using LockHandler.child_wellFounded.induction generalizing n t p with
  | _ h ihchild =>
  induction n using Nat.strong_induction_on generalizing t with
  | _ n ihn =>
  refine .step (hfollows.progress hb hiso (hcomparable [])) fun x t' hstep => ?_
  rcases hfollows.step hb hiso hstep with ⟨m, hm, hwaits⟩ | ⟨m, hmoves⟩
  · exact ihn m hm hwaits
  · rcases PlainThread.step_rest mode x hrest with hnone | ⟨h', hchild, hsome⟩
    · exact .left (hmoves.rest_none.mpr hnone)
    · exact ihchild h' hchild hsome hmoves fun ys => hcomparable (x :: ys)

/-- At any time the calls of the underlying lock functions are those of a plain thread that has been
given the same results, and a handler that has been left has left the memory of the plain thread.
Where the writes between two ends of pieces can be compared, every handler comes to its end. -/
theorem miniTraversals_follow {locks : LockState} (hb : b.redundancy = 2)
    (hiso : b.cpuIsolation = false) (hw : w.Waiting b) (hlocks : locks.abuf.Empty) (h : LockHandler) :
    (∀ xs t, Mtl.run env b mode xs (Mtl.begin w locks h) = .ok t →
      ∃ ys p, ys.Sublist xs ∧ p = (PlainThread.begin w.mem locks.calls h).run mode ys ∧
        t.locks.calls = p.calls ∧ (t.rest = none → p.rest = none ∧ t.world.mem = p.mem)) ∧
      ((∀ ys, Comparable ((PlainThread.begin w.mem locks.calls h).run mode ys).since) →
        (Mtl.begin w locks h).Finishes env b mode) := by
  have hfirst : Follows env b mode 1 (Mtl.begin w locks h)
      (PlainThread.begin w.mem locks.calls h) := .first (piece_begin hw hlocks h)
  refine ⟨fun xs t hrun => ?_, hfirst.finishes hb hiso rfl⟩
  obtain ⟨ys, m, hsub, hfollows⟩ := hfirst.run hb hiso hrun
  exact ⟨ys, _, hsub, rfl, hfollows.calls, fun hrest =>
    ⟨hfollows.rest_none.mp hrest, hfollows.mem hrest⟩⟩

/-- Takes a mutex, writes, gives the mutex back and writes once more. -/
def lockWriteUnlock : LockHandler :=
  .lock (.lock 8) fun _ => .write .uint8 64 5 (.lock (.unlock 8) fun _ => .write .uint8 65 6 .done)

theorem comparable_of_length {ws : List Write} (hlen : ws.length ≤ 1) : Comparable ws := by
  refine ⟨fun x hx y hy => ?_, by simp only [abufMaxConflicts]; omega⟩
  obtain ⟨i, hi, rfl⟩ := List.mem_iff_getElem.mp hx
  obtain ⟨j, hj, rfl⟩ := List.mem_iff_getElem.mp hy
  obtain rfl : i = j := by omega
  exact .inl rfl

theorem PlainThread.run_of_rest_none (hrest : p.rest = none) (ys : List Outside) :
    p.run mode ys = p := by
  induction ys with
  | nil => rfl
  | cons y ys ih =>
    have hstays : p.step mode y = p := by simp only [PlainThread.step, hrest]
    show (p.step mode y).run mode ys = p
    rw [hstays, ih]

theorem comparable_lockWriteUnlock (mem : Mem) (ys : List Outside) :
    Comparable ((PlainThread.begin mem [] lockWriteUnlock).run .mtl ys).since := by
  refine comparable_of_length ?_
  match ys with
  | [] => exact Nat.zero_le 1
  | [_] => exact Nat.zero_le 1
  | [_, _] => exact le_refl 1
  | [_, _, _] => exact Nat.zero_le 1
  | [_, _, _, _] => exact le_refl 1
  | y1 :: y2 :: y3 :: y4 :: y5 :: ys =>
    rw [show (PlainThread.begin mem [] lockWriteUnlock).run .mtl (y1 :: y2 :: y3 :: y4 :: y5 :: ys) =
      ((PlainThread.begin mem [] lockWriteUnlock).run .mtl [y1, y2, y3, y4, y5]).run .mtl ys from rfl,
      PlainThread.run_of_rest_none rfl]
    exact le_refl 1

/-- A thread that begins to run it. -/
def beginLockWriteUnlock (b : Build) : Mtl :=
  Mtl.begin (World.init b fun _ => 1) (SeiThread.init b).locks lockWriteUnlock

/-- Two pieces: in the first phase of the first one the mutex is taken, and between the pieces it is
given back. -/
theorem miniTraversals_follow_lockWriteUnlock :
    (beginLockWriteUnlock (.twoWay false false)).Finishes Env.plain (.twoWay false false) .mtl ∧
      ∃ xs t, ∃ p : PlainThread, Mtl.run Env.plain (.twoWay false false) .mtl xs
          (beginLockWriteUnlock (.twoWay false false)) = .ok t ∧
        t.locks.calls = [.lock 8 0, .unlock 8 0] ∧ t.locks.calls = p.calls ∧
        p.rest = none ∧ t.world.mem = p.mem := by
  have hwaiting := World.waiting_init (.twoWay false false) fun _ => 1
  have hempty : (SeiThread.init (.twoWay false false)).locks.abuf.Empty := ⟨rfl, rfl⟩
  obtain ⟨hfollow, hfinish⟩ := @miniTraversals_follow Env.plain _ .mtl _ _ rfl rfl hwaiting hempty
    lockWriteUnlock
  obtain ⟨t, hrun, hleft, hcalls⟩ : ∃ t, Mtl.run Env.plain (.twoWay false false) .mtl
      (List.replicate 10 ⟨0, id⟩) (beginLockWriteUnlock (.twoWay false false)) = .ok t ∧
      t.rest = none ∧ t.locks.calls = [.lock 8 0, .unlock 8 0] := ⟨_, rfl, rfl, rfl⟩
  obtain ⟨ys, p, _, _, hsame, hend⟩ := hfollow _ t hrun
  obtain ⟨hrest, hmem⟩ := hend hleft
  exact ⟨hfinish (comparable_lockWriteUnlock _), _, t, p, hrun, hcalls, hsame, hrest, hmem⟩

end Steps

end LibSei
