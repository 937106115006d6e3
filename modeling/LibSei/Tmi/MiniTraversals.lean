-- SUMMARY: Mini traversals: a handler is cut at its lock operations, and every piece is a transaction of two phases.
import LibSei.Tmi.Concurrent

/-!
# Mini traversals

Under `SEI_MTL` an unlock inside a handler commits what has been done so far, and a new
transaction begins behind it; under `SEI_MTL2` this is done at every lock operation. The second
phase of a piece resumes the context and the stack that were saved where the piece began. Here a
handler is a tree, so what is saved is the subtree to go on with.
-/

namespace LibSei

open Memory Control

/-- The two builds with mini traversals. -/
inductive MtlMode where
  | mtl
  | mtl2
  deriving DecidableEq, Repr

/-- The wrapped function commits the piece. -/
def MtlMode.ends : MtlMode → LockOp → Bool
  | .mtl, .unlock _ => true
  | .mtl, _ => false
  | .mtl2, _ => true

/-- The call of the underlying function. -/
def LockOp.made : LockOp → Int32 → LockCall
  | .lock m, r => .lock m r
  | .trylock m, r => .trylock m r
  | .unlock m, r => .unlock m r

/-- A wrapped call that does not commit. -/
def MtlMode.call (mode : MtlMode) (b : Build) (p : Int) (o : LockOp) (real : Int32) (s : LockState) :
    Exec (Int32 × LockState) :=
  match mode, o with
  | .mtl, .lock m => pthreadMutexLock b p m real s
  | .mtl, .trylock m => pthreadMutexTrylock b p m real s
  | _, o => return (real, s.really (o.made real))

/-- What the world does to a thread in a step: what an underlying function returns, and what other
threads have done to memory until it returned. -/
structure Outside where
  real : Int32
  others : Mem → Mem

/-- A thread in a handler. The second phase resumes at `start`; `rest` is what is left to do, and
nothing once the handler has been left. -/
structure Mtl where
  world : World
  locks : LockState
  start : LockHandler
  rest : Option LockHandler

namespace Mtl

variable (env : Env) (b : Build) (mode : MtlMode)

/-- The beginning of a piece: `_ITM_beginTransaction` saves the context. -/
def begin (w : World) (locks : LockState) (h : LockHandler) : Mtl := ⟨w.beginPhase, locks, h, some h⟩

/-- `sei_prepare_nm`. -/
def prepareNm (w : World) : World :=
  { w with sei := { w.sei with
    ibuf := { w.sei.ibuf with ptr := 0, size := 0, crc := Crc.init, mode := .readOnly } } }

/-- `__sei_commit` of `SEI_MTL`. In phase 0 it does not return: the thread goes on where the piece
began. -/
def seiCommit (t : Mtl) : Exec (Bool × Mtl) :=
  if t.world.sei.p = 0 then do
    let w ← t.world.switch env b
    return (false, { t with world := w, rest := some t.start })
  else do
    let w ← t.world.commit env b
    b.assert (t.locks.abuf.size = 0) "abuf_size(__sei_thread->abuf) == 0"
    return (true, { t with world := w, locks := { t.locks with abuf := t.locks.abuf.clean } })

/-- The rest of a wrapped function that commits, after `__sei_commit` has returned: the underlying
function is called, and `__sei_mtl` begins the next piece. -/
def resume (x : Outside) (o : LockOp) (next : Int32 → LockHandler) (t : Mtl) : Mtl :=
  let machine := { t.world.machine with mem := x.others t.world.mem }
  begin (prepareNm { t.world with machine := machine }) (t.locks.really (o.made x.real)) (next x.real)

/-- One operation of the handler, or the end of a phase. -/
def step (x : Outside) (t : Mtl) : Exec Mtl :=
  match t.rest with
  | none => return t
  | some .done => do
      let (returned, t) ← t.seiCommit env b
      return if returned then { t with rest := none } else t
  | some (.read ty addr next) => return { t with rest := some (next (t.world.read ty addr)) }
  | some (.write ty addr value next) => do
      let w ← t.world.write b ty addr value
      return { t with world := w, rest := some next }
  | some (.lock o next) =>
      if mode.ends o ∧ (t.world.sei.p = 0 ∨ t.world.sei.p = 1) then do
        let (returned, t) ← t.seiCommit env b
        return if returned then t.resume x o next else t
      else do
        let (r, locks) ← mode.call b t.world.sei.p o x.real t.locks
        return { t with locks := locks, rest := some (next r) }

/-- Any number of steps. -/
def run : List Outside → Mtl → Exec Mtl
  | [], t => return t
  | x :: xs, t => do
      let t ← t.step env b mode x
      run xs t

end Mtl

/-! ## The same thread without the library -/

/-- A thread in a handler that is not hardened, with the writes since the last call that ends a
piece. -/
structure PlainThread where
  mem : Mem
  calls : List LockCall
  since : List Write
  rest : Option LockHandler

namespace PlainThread

variable (mode : MtlMode)

def begin (mem : Mem) (calls : List LockCall) (h : LockHandler) : PlainThread :=
  ⟨mem, calls, [], some h⟩

/-- One operation of the handler. -/
def step (x : Outside) (p : PlainThread) : PlainThread :=
  match p.rest with
  | none => p
  | some .done => { p with rest := none }
  | some (.read ty addr next) => { p with rest := some (next (load p.mem addr ty.sizeof)) }
  | some (.write ty addr value next) =>
      { p with
        mem := store p.mem addr ty.sizeof value
        since := p.since ++ writesOf [.write ty addr value]
        rest := some next }
  | some (.lock o next) =>
      let calls := p.calls ++ [o.made x.real]
      if mode.ends o then begin (x.others p.mem) calls (next x.real)
      else { p with calls := calls, rest := some (next x.real) }

def run (xs : List Outside) (p : PlainThread) : PlainThread :=
  xs.foldl (fun p x => p.step mode x) p

end PlainThread

end LibSei
