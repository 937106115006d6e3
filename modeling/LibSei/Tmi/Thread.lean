-- SUMMARY: A thread at the interface the compiler calls: the ITM functions, the ignore state, begin, commit and the signal handler.
import LibSei.ModeCow.Commit
import LibSei.Tmi.Locks
import LibSei.Tmi.Syscalls

/-!
# The thread interface

The compiler turns the accesses of a transaction into calls of `_ITM_` functions, which
pass them on to the library unless the address is to be ignored. `__sei_commit` ends a
phase; it starts the next phase, the next attempt, or leaves the transaction. A `SIGSEGV`
inside a transaction is answered by a new attempt as well.
-/

namespace LibSei

open Memory Control

/-! ## The ignore state -/

/-- `SEI_MAX_IGNORE`. -/
def seiMaxIgnore : Nat := 1000

/-- The global variables that say which addresses are ignored: `__sei_ignore_addr_s`,
`__sei_ignore_addr_e`, `__sei_ignore_num`, `__sei_ignore_allf` and `__sei_write_disable`. They
exist once per process. -/
@[ext] structure Ignore where
  addrS : Nat → Nat
  addrE : Nat → Nat
  num : Nat
  allf : Nat
  writeDisable : Int

namespace Ignore

def init : Ignore := ⟨fun _ => 0, fun _ => 0, 0, 0, 0⟩

/-- The address lies in one of the ranges. -/
def covers (g : Ignore) (ptr : Nat) : Bool :=
  (List.range g.num).any fun i => decide (g.addrS i ≤ ptr) && decide (ptr ≤ g.addrE i)

/-- The range is there already. -/
def listed (g : Ignore) (start stop : Nat) : Bool :=
  (List.range g.num).any fun i => g.addrS i == start && g.addrE i == stop

/-- The address is the start of a range. -/
def starts (g : Ignore) (ptr : Nat) : Bool := (List.range g.num).any fun i => ptr == g.addrS i

/-- Appending a range. The capacity is asserted after the range has been written. -/
def append (b : Build) (g : Ignore) (start stop : Nat) : Exec Ignore := do
  inBounds (g.num < seiMaxIgnore) "__sei_ignore_addr_s"
  let g := { g with
    addrS := Function.update g.addrS g.num start
    addrE := Function.update g.addrE g.num stop
    num := g.num + 1 }
  b.assert (seiMaxIgnore ≥ g.num) "not enough ignore slots"
  return g

/-- The assignments at the start of `__sei_commit`. -/
def reset (g : Ignore) : Ignore := { g with num := 0, writeDisable := 0 }

section Ranges

variable {b : Build} {g g' : Ignore} {start stop : Nat}

theorem covers_iff {ptr : Nat} :
    g.covers ptr = true ↔ ∃ i < g.num, g.addrS i ≤ ptr ∧ ptr ≤ g.addrE i := by
  simp [covers]

/-- Adding a range covers its addresses as well. -/
theorem append_covers (h : g.append b start stop = .ok g') {ptr : Nat} :
    g'.covers ptr = true ↔ g.covers ptr = true ∨ start ≤ ptr ∧ ptr ≤ stop := by
  simp only [append, bind_eq_ok, pure_eq_ok, Except.ok.injEq] at h
  obtain ⟨_, _, _, _, rfl⟩ := h
  simp only [covers_iff]
  constructor
  · rintro ⟨i, hi, hcov⟩
    rcases Nat.lt_succ_iff_lt_or_eq.mp hi with hlt | rfl
    · rw [Function.update_of_ne (by omega), Function.update_of_ne (by omega)] at hcov
      exact .inl ⟨i, hlt, hcov⟩
    · rw [Function.update_self, Function.update_self] at hcov
      exact .inr hcov
  · rintro (⟨i, hi, hcov⟩ | hcov)
    · refine ⟨i, by omega, ?_⟩
      rw [Function.update_of_ne (by omega), Function.update_of_ne (by omega)]
      exact hcov
    · refine ⟨g.num, Nat.lt_succ_self _, ?_⟩
      rw [Function.update_self, Function.update_self]
      exact hcov

/-- A range that is listed is covered already. -/
theorem covers_of_listed (h : g.listed start stop = true) {ptr : Nat}
    (hcov : start ≤ ptr ∧ ptr ≤ stop) : g.covers ptr = true := by
  simp only [listed, List.any_eq_true, List.mem_range, Bool.and_eq_true, beq_iff_eq] at h
  obtain ⟨i, hi, rfl, rfl⟩ := h
  exact covers_iff.mpr ⟨i, hi, hcov⟩

end Ranges

end Ignore

/-! ## Threads -/

/-- `sei_thread_t` in a build with `SEI_2PL` and `SEI_WRAP_SC`, with the underlying functions
its wrappers have called. -/
@[ext] structure SeiThread where
  sei : Sei
  high : Nat
  abufSc : Abuf
  sysCalls : List SysCall
  locks : LockState

/-- `__sei_thread_init`. -/
def SeiThread.init (b : Build) : SeiThread where
  sei := Sei.init b
  high := 0
  abufSc := Abuf.init scMaxCalls (by decide)
  sysCalls := []
  locks := ⟨Abuf.init 100 (by decide), []⟩

/-- A thread in its process. -/
@[ext] structure Tmi extends SeiThread where
  ignore : Ignore
  machine : Machine

namespace Tmi

/-- The first thread of a process. -/
def init (b : Build) (mem : Mem) : Tmi := ⟨SeiThread.init b, Ignore.init, ⟨mem, 0, []⟩⟩

/-- The library state of the thread. -/
abbrev world (t : Tmi) : World := ⟨t.sei, t.machine⟩

def setWorld (t : Tmi) (w : World) : Tmi := { t with sei := w.sei, machine := w.machine }

/-- What the wrappers of system calls work on. -/
def sys (t : Tmi) : SysState := ⟨t.sei.wts, t.abufSc, t.sysCalls⟩

def setSys (t : Tmi) (s : SysState) : Tmi :=
  { t with sei := { t.sei with wts := s.wts }, abufSc := s.abufSc, sysCalls := s.calls }

def setLocks (t : Tmi) (l : LockState) : Tmi := { t with locks := l }

/-! ## ITM functions -/

/-- `ignore_addr`, with the stack pointer `sp`. -/
def ignoreAddr (t : Tmi) (sp ptr : Nat) : Bool :=
  t.ignore.writeDisable != 0 || (decide (sp ≤ ptr) && decide (ptr < t.high)) || t.ignore.covers ptr

/-- `__sei_ignore_addr`. -/
def seiIgnoreAddr (b : Build) (t : Tmi) (start stop : Nat) : Exec Tmi :=
  if t.sei.p = -1 then return t
  else if t.ignore.listed start stop then return t
  else do
    let g ← t.ignore.append b start stop
    return { t with ignore := g }

/-- `_ITM_malloc`. -/
def itmMalloc (env : Env) (b : Build) (t : Tmi) (size : Nat) : Exec (Nat × Tmi) :=
  if t.ignore.allf ≠ 0 then do
    let (r, machine) := t.machine.malloc env size
    let t ← seiIgnoreAddr b { t with machine := machine } r (r + size)
    return (r, t)
  else do
    let (r, w) ← t.world.malloc env b size
    return (r, t.setWorld w)

/-- `_ITM_free`. -/
def itmFree (env : Env) (b : Build) (t : Tmi) (ptr : Nat) : Exec Tmi :=
  if t.ignore.starts ptr then return { t with machine := t.machine.free env ptr }
  else do
    let w ← t.world.free b ptr
    return t.setWorld w

/-- `ITM_WRITE` on a log with room. -/
def itmWrite (b : Build) (t : Tmi) (sp : Nat) (ty : UIntTy) (addr value : Nat) : Exec Tmi :=
  if t.ignoreAddr sp addr then
    return { t with machine := { t.machine with mem := store t.machine.mem addr ty.sizeof value } }
  else do
    let w ← t.world.write b ty addr value
    return t.setWorld w

/-! ## Begin, commit and recovery -/

/-- `__sei_begin`, called with the frame pointer `rbp`. -/
def seiBegin (t : Tmi) (rbp : Nat) : Tmi := { t.setWorld t.world.beginPhase with high := rbp }

end Tmi

/-- How the handler goes on after `__sei_commit`: it is executed again as the next phase, it
is executed again as the first phase of a new attempt, or the transaction is over. -/
inductive Next where
  | reexecute | retry | committed
  deriving DecidableEq, Repr

namespace Tmi

variable (env : Env) (b : Build)

/-- The branch of `__sei_commit` that starts the next phase. -/
def switchPhase (t : Tmi) : Exec Tmi := do
  let w ← t.world.switch env b
  return (t.setWorld w).setLocks { t.locks with abuf := t.locks.abuf.rewind }

/-- The end of `__sei_commit`, when the transaction is over. -/
def leave (t : Tmi) : Exec Tmi := do
  b.assert (t.sei.p = -1) "sei_getp(__sei_thread->sei) == -1"
  let l ← t.locks.release b
  return { t.setLocks l with abufSc := t.abufSc.clean }

/-- The branch of the retry loop that starts a new attempt. -/
def retryCommit (t : Tmi) : Exec Tmi := do
  let w ← t.world.recover env b
  return { (t.setWorld w).setLocks { t.locks with abuf := t.locks.abuf.clean } with
    abufSc := t.abufSc.clean }

/-- `__sei_commit`. -/
def seiCommit (t : Tmi) : Exec (Next × Tmi) := do
  let t : Tmi := { t with ignore := t.ignore.reset }
  if t.sei.p < t.sei.redundancyLevel - 1 then
    let t ← t.switchPhase env b
    return (.reexecute, t)
  b.assert (t.sei.p = t.sei.redundancyLevel - 1) "Invalid phase in __sei_commit()"
  if b.cpuIsolation then
    let (ok, w) ← t.world.tryCommit env b
    let t := t.setWorld w
    if ok then
      let w ← t.world.commit env b
      let t ← (t.setWorld w).leave b
      return (.committed, t)
    else
      let t ← t.retryCommit env b
      return (.retry, t)
  else
    let w ← t.world.commit env b
    let t ← (t.setWorld w).leave b
    return (.committed, t)

/-- `protect_handler`, installed for `SIGSEGV`. Outside transactions the process ends. -/
def protectHandler (t : Tmi) : Exec Tmi := do
  require (0 ≤ t.sei.p) (.abort "SIGSEGV")
  let w ← t.world.recover env b
  return t.setWorld w

end Tmi

/-! ## Phases as the operations they make -/

/-- One operation of a phase. System calls and lock operations come with what the underlying
function returns if it is called. -/
inductive Op where
  | write (sp : Nat) (t : UIntTy) (addr value : Nat)
  | malloc (size : Nat)
  | free (ptr : Nat)
  | outputAppend (ptr size : Nat)
  | outputDone
  | ignore (v : Int)
  | ignoreAll (v : Nat)
  | ignoreAddr (start stop : Nat)
  | sys (c : SysCall) (real : Int32)
  | lock (o : LockOp) (real : Int32)

namespace Tmi

variable (env : Env) (b : Build)

/-- An operation. The handler is given the result of wrapped calls. -/
def op (t : Tmi) : Op → Exec (Option Int32 × Tmi)
  | .write sp ty addr value => do
      let t ← t.itmWrite b sp ty addr value
      return (none, t)
  | .malloc size => do
      let (_, t) ← t.itmMalloc env b size
      return (none, t)
  | .free ptr => do
      let t ← t.itmFree env b ptr
      return (none, t)
  | .outputAppend ptr size => do
      let w ← t.world.outputAppend env b ptr size
      return (none, t.setWorld w)
  | .outputDone => do
      let w ← t.world.outputDone b
      return (none, t.setWorld w)
  | .ignore v => return (none, { t with ignore := { t.ignore with writeDisable := v } })
  | .ignoreAll v => return (none, { t with ignore := { t.ignore with allf := v } })
  | .ignoreAddr start stop => do
      let t ← t.seiIgnoreAddr b start stop
      return (none, t)
  | .sys c real => do
      let (r, s) ← c.run b t.sei.p real t.sys
      return (some r, t.setSys s)
  | .lock o real => do
      let (r, l) ← o.run b t.sei.p real t.locks
      return (some r, t.setLocks l)

/-- The operations of a phase. -/
def ops : List Op → Tmi → Exec (List (Option Int32) × Tmi) := runEach fun o t => t.op env b o

/-- The end of phase `k`: `__sei_begin`, the phases up to it and the calls of `__sei_commit`
between them, with the results each phase was given. -/
def phases (rbp : Nat) (os : Nat → List Op) (t : Tmi) :
    Nat → Exec (List (List (Option Int32)) × Tmi)
  | 0 => do
      let (rs, t) ← ops env b (os 0) (t.seiBegin rbp)
      return ([rs], t)
  | k + 1 => do
      let (rss, t) ← phases rbp os t k
      let (_, t) ← t.seiCommit env b
      let (rs, t) ← ops env b (os (k + 1)) t
      return (rss ++ [rs], t)

end Tmi

end LibSei
