-- SUMMARY: The library state `sei` in copy-on-write mode, the operations a handler makes and the phase switch.
import LibSei.Abuf.Swap
import LibSei.Abuf.CmpHeapNway
import LibSei.Abuf.Restore
import LibSei.Traversal.Alloc
import LibSei.Traversal.Wts
import LibSei.Traversal.Messages
import LibSei.Traversal.Cfc

/-!
# Traversals

A transaction runs its handler once per phase. Inside a phase the handler reads and
writes memory, allocates, frees, emits output and makes system calls, all through the
library; `sei_switch` ends a phase and puts memory back to what it was at
`sei_begin`. The logs of the phases of a handler are taken to have room for what it writes; a
run in which one of them is full is this run up to there.
-/

namespace LibSei

open Memory Control

/-- `COW_SIZE`. -/
def cowSize : Nat := 128

/-- `struct sei` with `COW_APPEND_ONLY`. The phase is -1 outside transactions. -/
@[ext] structure Sei where
  p : Int
  redundancyLevel : Nat
  cow : Nat → Abuf
  tbin : Tbin
  talloc : Talloc
  obuf : Obuf
  ibuf : Ibuf
  cf : Nat → Cfc
  wts : Wts

/-- `sei_init`. The fields of `ibuf` and `cf` that it leaves unset are set here. -/
def Sei.init (b : Build) : Sei where
  p := -1
  redundancyLevel := b.redundancy
  cow := fun _ => Abuf.init cowSize (by decide)
  tbin := Tbin.init b tbinSize
  talloc := Talloc.init b
  obuf := Obuf.init b
  ibuf := ⟨0, 0, Crc.init, 0, .readOnly, 0⟩
  cf := fun _ => Cfc.reset
  wts := Wts.init scMaxCalls

/-- `sei_set_redundancy`. -/
def Sei.setRedundancy (b : Build) (s : Sei) (n : Nat) : Exec Sei := do
  b.assert (2 ≤ n ∧ n ≤ b.redundancy)
    "redundancy_level >= 2 && redundancy_level <= SEI_DMR_REDUNDANCY"
  b.assert (s.p = -1) "sei->p == -1"
  return { s with
    redundancyLevel := n
    talloc := { s.talloc with redundancyLevel := n }
    tbin := { s.tbin with redundancyLevel := n }
    obuf := { s.obuf with redundancyLevel := n } }

/-- The library state in its process. -/
@[ext] structure World where
  sei : Sei
  machine : Machine

namespace World

/-- A process that has called `sei_init` and nothing else. -/
def init (b : Build) (mem : Mem) : World := ⟨Sei.init b, ⟨mem, 0, []⟩⟩

/-- The memory of the process. -/
abbrev mem (w : World) : Mem := w.machine.mem

/-! ## Operations of a handler -/

/-- `SEI_READ`. -/
def read (w : World) (t : UIntTy) (addr : Nat) : Nat := load w.mem addr t.sizeof

/-- The two statements of `SEI_WRITE`: the value found at the address goes to the log of
the phase, then the new value is stored. -/
def logWrite (w : World) (p : Nat) (t : UIntTy) (addr value : Nat) : World :=
  let a := (w.sei.cow p).push t addr (load w.mem addr t.sizeof)
  { sei := { w.sei with cow := Function.update w.sei.cow p a }
    machine := { w.machine with mem := store w.mem addr t.sizeof value } }

/-- `SEI_WRITE` on a log with room. -/
def write (b : Build) (w : World) (t : UIntTy) (addr value : Nat) : Exec World := do
  b.assert (0 ≤ w.sei.p ∧ w.sei.p < b.redundancy) "sei->p >= 0 && sei->p < SEI_DMR_REDUNDANCY"
  inBounds (0 ≤ w.sei.p ∧ w.sei.p < maxRedundancy) "sei->cow"
  return w.logWrite w.sei.p.toNat t addr value

/-- `SEI_WRITE`. -/
def seiWrite (b : Build) (w : World) (t : UIntTy) (addr value : Nat) : Exec World := do
  b.assert (0 ≤ w.sei.p ∧ w.sei.p < b.redundancy) "sei->p >= 0 && sei->p < SEI_DMR_REDUNDANCY"
  inBounds (0 ≤ w.sei.p ∧ w.sei.p < maxRedundancy) "sei->cow"
  let a ← (w.sei.cow w.sei.p.toNat).pushType t addr (load w.mem addr t.sizeof)
  return {
    sei := { w.sei with cow := Function.update w.sei.cow w.sei.p.toNat a }
    machine := { w.machine with mem := store w.mem addr t.sizeof value } }

/-- `sei_malloc`. -/
def malloc (env : Env) (b : Build) (w : World) (size : Nat) : Exec (Nat × World) := do
  let (addr, talloc, machine) ← w.sei.talloc.malloc env b size w.machine
  return (addr, { sei := { w.sei with talloc := talloc }, machine := machine })

/-- `sei_free`. -/
def free (b : Build) (w : World) (ptr : Nat) : Exec World := do
  let tbin ← w.sei.tbin.add b ptr w.sei.p
  return { w with sei := { w.sei with tbin := tbin } }

/-- `sei_output_append`. -/
def outputAppend (env : Env) (b : Build) (w : World) (ptr size : Nat) : Exec World :=
  if w.sei.p = -1 then return w
  else do
    let obuf ← w.sei.obuf.push env b w.mem ptr size
    return { w with sei := { w.sei with obuf := obuf } }

/-- `sei_output_done`. -/
def outputDone (b : Build) (w : World) : Exec World :=
  if w.sei.p = -1 then return w
  else do
    let obuf ← w.sei.obuf.done b
    return { w with sei := { w.sei with obuf := obuf } }

/-- A wrapped system call: `wts_add` in the current phase. -/
def defer (b : Build) (w : World) (fp : Nat) (args : List Nat) : Exec World := do
  let wts ← w.sei.wts.add b w.sei.p fp args
  return { w with sei := { w.sei with wts := wts } }

/-- `sei_output_next`. -/
def outputNext (b : Build) (w : World) : Exec (UInt32 × World) := do
  b.assert (w.sei.p = -1) "sei->p == -1"
  let size ← w.sei.obuf.size b
  b.assert (0 < size) "no CRC to pop"
  let (crc, obuf) ← w.sei.obuf.pop b
  return (crc, { w with sei := { w.sei with obuf := obuf } })

/-! ## Traversal control -/

/-- `sei_begin`. -/
def beginPhase (w : World) : World :=
  if w.sei.p = -1 then
    { w with sei := { w.sei with
      p := 0
      cf := fun i => if i < w.sei.redundancyLevel then Cfc.reset else w.sei.cf i } }
  else w

/-- Outside a transaction `sei_begin` starts phase 0. -/
theorem beginPhase_of_idle {w : World} (h : w.sei.p = -1) :
    w.beginPhase = { w with sei := { w.sei with
      p := 0
      cf := fun i => if i < w.sei.redundancyLevel then Cfc.reset else w.sei.cf i } } := if_pos h

/-- `sei_switch`. -/
def switch (env : Env) (b : Build) (w : World) : Exec World := do
  b.assert (0 ≤ w.sei.p ∧ w.sei.p < w.sei.redundancyLevel - 1)
    "sei_switch() called with invalid phase"
  let p := w.sei.p + 1
  let talloc ← w.sei.talloc.switch b
  let obuf := w.sei.obuf.close
  let ibuf := w.sei.ibuf.switch env w.mem
  inBounds (0 ≤ p - 1 ∧ p - 1 < maxRedundancy) "sei->cow"
  let prev := (p - 1).toNat
  let (a, mem) ← (w.sei.cow prev).swap b w.mem
  return {
    sei := { w.sei with
      p := p, talloc := talloc, obuf := obuf, ibuf := ibuf
      cow := Function.update w.sei.cow prev a }
    machine := { w.machine with mem := mem } }

end World

/-! ## Phases as the operations they make -/

/-- One operation of a phase. Reads leave no trace and are not listed; a fault may put
any operation in any place. -/
inductive Call where
  | write (t : UIntTy) (addr value : Nat)
  | malloc (size : Nat)
  | free (ptr : Nat)
  | outputAppend (ptr size : Nat)
  | outputDone
  | defer (fp : Nat) (args : List Nat)
  deriving DecidableEq, Repr

namespace World

variable (env : Env) (b : Build)

def call (w : World) : Call → Exec World
  | .write t addr value => w.write b t addr value
  | .malloc size => do
      let (_, w) ← w.malloc env b size
      return w
  | .free ptr => w.free b ptr
  | .outputAppend ptr size => w.outputAppend env b ptr size
  | .outputDone => w.outputDone b
  | .defer fp args => w.defer b fp args

def calls : List Call → World → Exec World
  | [], w => return w
  | c :: cs, w => do
      let w ← w.call env b c
      calls cs w

/-- The state in which phase `k` starts: after `sei_begin`, the phases before it and the
switches between them. What phase `j` does is given by `body j`. -/
def phaseStart (body : Nat → World → Exec World) (w : World) : Nat → Exec World
  | 0 => return w.beginPhase
  | k + 1 => do
      let w ← phaseStart body w k
      let w ← body k w
      w.switch env b

/-- The state after the operations `cs` of phase `k`, all of them or those made before
the phase was interrupted. -/
def inPhase (phases : Nat → List Call) (w : World) (k : Nat) (cs : List Call) : Exec World := do
  let w ← phaseStart env b (fun j => calls env b (phases j)) w k
  calls env b cs w

/-- The state at the end of the last phase. -/
def finalPhase (phases : Nat → List Call) (w : World) : Exec World :=
  inPhase env b phases w (w.sei.redundancyLevel - 1) (phases (w.sei.redundancyLevel - 1))

end World

end LibSei
