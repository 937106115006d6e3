-- SUMMARY: A fragment of x86-64: registers, moves, calls and jumps over byte memory, code at addresses, and the rules for running straight-line code.
import LibSei.Memory.Bytes
import Mathlib.Logic.Relation

/-!
# A fragment of x86-64

Registers hold 64-bit words and memory holds bytes. Code stands at addresses; a function
that is not given as code is given by what it does. Flags are left out: no instruction of
the fragment reads them.
-/

namespace X64

open Memory

abbrev Word := BitVec 64

inductive Reg where
  | rax | rcx | rdx | rbx | rsp | rbp | rsi | rdi
  | r8 | r9 | r10 | r11 | r12 | r13 | r14 | r15
  deriving DecidableEq, Repr

/-- The registers that a function gives back as it found them, besides the stack pointer. -/
def Reg.calleeSaved : List Reg := [.rbx, .rbp, .r12, .r13, .r14, .r15]

/-- A subtraction that does not wrap. -/
theorem toNat_sub {x : Word} {d : Nat} (h : d ≤ x.toNat) :
    (x - BitVec.ofNat 64 d).toNat = x.toNat - d := by
  have hlt := x.isLt
  have hd : (BitVec.ofNat 64 d).toNat = d := by
    rw [BitVec.toNat_ofNat, Nat.mod_eq_of_lt (by omega)]
  rw [BitVec.toNat_sub_of_le (by rw [BitVec.le_def, hd]; exact h), hd]

/-- An addition that does not wrap. -/
theorem toNat_add {x : Word} {d : Nat} (h : x.toNat + d < 2 ^ 64) :
    (x + BitVec.ofNat 64 d).toNat = x.toNat + d := by
  rw [BitVec.toNat_add, BitVec.toNat_ofNat, Nat.mod_eq_of_lt (a := d) (by omega), Nat.mod_eq_of_lt h]

@[ext] structure State where
  rip : Word
  reg : Reg → Word
  mem : Mem

namespace State

def set (s : State) (r : Reg) (v : Word) : State := { s with reg := Function.update s.reg r v }

/-- The word at an address. -/
def word (s : State) (a : Word) : Word := BitVec.ofNat 64 (load s.mem a.toNat 8)

def setWord (s : State) (a v : Word) : State := { s with mem := store s.mem a.toNat 8 v.toNat }

/-- Continue elsewhere. -/
def goto (s : State) (a : Word) : State := { s with rip := a }

variable (s : State) (r : Reg) (a v : Word)

@[simp] theorem reg_set : (s.set r v).reg = Function.update s.reg r v := rfl
@[simp] theorem mem_set : (s.set r v).mem = s.mem := rfl
@[simp] theorem word_set : (s.set r v).word a = s.word a := rfl
@[simp] theorem reg_setWord : (s.setWord a v).reg = s.reg := rfl
@[simp] theorem mem_setWord : (s.setWord a v).mem = store s.mem a.toNat 8 v.toNat := rfl
@[simp] theorem reg_goto : (s.goto a).reg = s.reg := rfl
@[simp] theorem mem_goto : (s.goto a).mem = s.mem := rfl
@[simp] theorem rip_goto : (s.goto a).rip = a := rfl
@[simp] theorem word_goto (b : Word) : (s.goto a).word b = s.word b := rfl

/-- The word just written is read back. -/
@[simp] theorem word_setWord : (s.setWord a v).word a = v := by
  have hlt : v.toNat < 256 ^ 8 := v.isLt
  rw [word, mem_setWord, load_store_same, Nat.mod_eq_of_lt hlt, BitVec.ofNat_toNat, BitVec.setWidth_eq]

/-- A function is called: the return address is pushed. -/
def pushCall (target next : Word) : State :=
  ((s.set .rsp (s.reg .rsp - 8)).setWord (s.reg .rsp - 8) next).goto target

variable (target next : Word)

theorem reg_pushCall {r : Reg} (hr : r ≠ .rsp) : (s.pushCall target next).reg r = s.reg r := by
  rw [pushCall, reg_goto, reg_setWord, reg_set, Function.update_of_ne hr]

theorem rsp_pushCall : (s.pushCall target next).reg .rsp = s.reg .rsp - 8 := by
  rw [pushCall, reg_goto, reg_setWord, reg_set, Function.update_self]

theorem mem_pushCall :
    (s.pushCall target next).mem = store s.mem (s.reg .rsp - 8).toNat 8 next.toNat := by
  rw [pushCall, mem_goto, mem_setWord, mem_set]

theorem word_pushCall : (s.pushCall target next).word ((s.pushCall target next).reg .rsp) = next := by
  rw [rsp_pushCall, pushCall, word_goto, word_setWord]

end State

/-- Operands stand in the order of the assembler, the destination last. -/
inductive Instr where
  /-- `leaq disp(base), dst` -/
  | leaq (disp : Nat) (base dst : Reg)
  /-- `addq $imm, dst` -/
  | addq (imm : Nat) (dst : Reg)
  /-- `subq $imm, dst` -/
  | subq (imm : Nat) (dst : Reg)
  /-- `movq src, dst` -/
  | movq (src dst : Reg)
  /-- `movl src, dst`: the upper half of the destination is cleared. -/
  | movl (src dst : Reg)
  /-- `movq src, disp(base)` -/
  | movqTo (src : Reg) (disp : Nat) (base : Reg)
  /-- `movq disp(base), dst` -/
  | movqFrom (disp : Nat) (base dst : Reg)
  | call (target : Word)
  | ret
  /-- `jmpq *target` -/
  | jmpq (target : Reg)
  deriving DecidableEq, Repr

namespace Instr

/-- What an instruction does to registers and memory, when `next` is the address behind it. -/
def effect (next : Word) (s : State) : Instr → State
  | leaq disp base dst => s.set dst (s.reg base + BitVec.ofNat 64 disp)
  | addq imm dst => s.set dst (s.reg dst + BitVec.ofNat 64 imm)
  | subq imm dst => s.set dst (s.reg dst - BitVec.ofNat 64 imm)
  | movq src dst => s.set dst (s.reg src)
  | movl src dst => s.set dst (((s.reg src).setWidth 32).setWidth 64)
  | movqTo src disp base => s.setWord (s.reg base + BitVec.ofNat 64 disp) (s.reg src)
  | movqFrom disp base dst => s.set dst (s.word (s.reg base + BitVec.ofNat 64 disp))
  | call target => s.pushCall target next
  | ret => s.set .rsp (s.reg .rsp + 8)
  | jmpq _ => s

/-- Where execution continues. -/
def target (next : Word) (s : State) : Instr → Word
  | call target => target
  | ret => s.word (s.reg .rsp)
  | jmpq r => s.reg r
  | _ => next

/-- The instruction is followed by the one behind it, and does not look at its own address. -/
def straight : Instr → Bool
  | call _ | ret | jmpq _ => false
  | _ => true

theorem target_of_straight {i : Instr} (h : i.straight = true) (next : Word) (s : State) :
    i.target next s = next := by
  cases i <;> first | rfl | cases h

theorem effect_of_straight {i : Instr} (h : i.straight = true) (next next' : Word) (s : State) :
    i.effect next s = i.effect next' s := by
  cases i <;> first | rfl | cases h

theorem target_ret (next : Word) (s : State) : ret.target next s = s.word (s.reg .rsp) := rfl

theorem effect_ret (next : Word) (s : State) : ret.effect next s = s.set .rsp (s.reg .rsp + 8) := rfl

theorem effect_call (target next a : Word) (s : State) :
    (call target).effect next (s.goto a) = s.pushCall target next := rfl

/-- Straight-line code leaves the instruction pointer to the one who runs it. -/
theorem effect_goto {i : Instr} (h : i.straight = true) (next a : Word) (s : State) :
    (i.effect next (s.goto a)) = (i.effect next s).goto a := by
  cases i <;> first | rfl | cases h

end Instr

/-- Code at addresses, each instruction with the address behind it, and functions given by what
they do from their call to their return. -/
structure Program where
  instr : Word → Option (Instr × Word)
  foreign : Word → Option (State → State)

namespace Program

def step (P : Program) (s : State) : Option State :=
  match P.foreign s.rip with
  | some f => some (f s)
  | none => (P.instr s.rip).map fun (i, next) => (i.effect next s).goto (i.target next s)

/-- Some number of steps. -/
def Steps (P : Program) : State → State → Prop :=
  Relation.ReflTransGen fun s s' => P.step s = some s'

/-- The code from an address on. -/
def Holds (P : Program) : Word → List Instr → Prop
  | _, [] => True
  | a, i :: is => P.foreign a = none ∧ ∃ next, P.instr a = some (i, next) ∧ P.Holds next is

/-- What straight-line code does. -/
def effects (is : List Instr) (s : State) : State := is.foldl (fun s i => i.effect 0 s) s

variable {P : Program} {a : Word} {i : Instr} {is js : List Instr} {s s' : State}

theorem effects_goto (hstraight : ∀ i ∈ is, i.straight = true) :
    effects is (s.goto a) = (effects is s).goto a := by
  induction is generalizing s with
  | nil => rfl
  | cons i is ih =>
    have hi := Instr.effect_goto (hstraight i List.mem_cons_self) 0 a s
    exact (congrArg (effects is) hi).trans (ih fun j hj => hstraight j (List.mem_cons_of_mem _ hj))

/-- One instruction. -/
theorem Holds.step (h : P.Holds a (i :: is)) (hs : s.rip = a) :
    ∃ next, P.Holds next is ∧ P.step s = some ((i.effect next s).goto (i.target next s)) := by
  obtain ⟨hforeign, next, hinstr, hrest⟩ := h
  refine ⟨next, hrest, ?_⟩
  rw [Program.step, hs, hforeign]
  simp only [hinstr, Option.map_some]

/-- Straight-line code runs to its end. -/
theorem Holds.straight (h : P.Holds a (is ++ js)) (hs : s.rip = a)
    (hstraight : ∀ i ∈ is, i.straight = true) :
    ∃ next, P.Holds next js ∧ P.Steps s ((effects is s).goto next) := by
  induction is generalizing s a with
  | nil =>
    refine ⟨a, h, ?_⟩
    rw [← hs]
    exact .refl
  | cons i is ih =>
    obtain ⟨next, hrest, hstep⟩ := h.step hs
    have hi := hstraight i List.mem_cons_self
    rw [Instr.target_of_straight hi, Instr.effect_of_straight hi next 0] at hstep
    have his : ∀ j ∈ is, j.straight = true := fun j hj => hstraight j (List.mem_cons_of_mem _ hj)
    obtain ⟨last, hjs, hsteps⟩ := ih (s := (i.effect 0 s).goto next) hrest rfl his
    refine ⟨last, hjs, .head hstep ?_⟩
    rw [effects_goto his] at hsteps
    exact hsteps

theorem step_foreign {f : State → State} (hf : P.foreign s.rip = some f) : P.step s = some (f s) := by
  rw [Program.step, hf]

/-- A call of a function that is given by what it does, after straight-line code. -/
theorem Holds.callForeign {f : State → State} {target : Word} {t : State}
    (h : P.Holds a (.call target :: is)) (hf : P.foreign target = some f) :
    ∃ next, P.Holds next is ∧ P.Steps (t.goto a) (f (t.pushCall target next)) := by
  obtain ⟨next, hrest, hstep⟩ := h.step (s := t.goto a) rfl
  rw [Instr.effect_call] at hstep
  exact ⟨next, hrest, .head hstep (.single (step_foreign hf))⟩

/-- A jump to the address in a register, after straight-line code. -/
theorem Holds.jump {r : Reg} {t : State} (h : P.Holds a (.jmpq r :: is)) :
    ∃ t', P.step (t.goto a) = some t' ∧ t'.rip = t.reg r ∧ t'.reg = t.reg ∧ t'.mem = t.mem := by
  obtain ⟨next, _, hstep⟩ := h.step (s := t.goto a) rfl
  exact ⟨_, hstep, rfl, rfl, rfl⟩

/-- A return, after straight-line code. -/
theorem Holds.ret {t : State} (h : P.Holds a (.ret :: is)) :
    ∃ t', P.step (t.goto a) = some t' ∧ t'.rip = t.word (t.reg .rsp) ∧
      t'.reg = Function.update t.reg .rsp (t.reg .rsp + 8) ∧ t'.mem = t.mem := by
  obtain ⟨next, _, hstep⟩ := h.step (s := t.goto a) rfl
  rw [Instr.target_ret, Instr.effect_ret, State.word_goto, State.reg_goto] at hstep
  refine ⟨_, hstep, State.rip_goto _ _, ?_, ?_⟩
  · rw [State.reg_goto, State.reg_set, State.reg_goto]
  · rw [State.mem_goto, State.mem_set, State.mem_goto]

/-- Code that stands at consecutive addresses. -/
theorem holds_of_getElem? (h : ∀ k < is.length, P.foreign (a + BitVec.ofNat 64 k) = none ∧
    P.instr (a + BitVec.ofNat 64 k) = is[k]?.map fun i => (i, a + BitVec.ofNat 64 (k + 1))) :
    P.Holds a is := by
  induction is generalizing a with
  | nil => trivial
  | cons i is ih =>
    have hshift : ∀ k : Nat, a + BitVec.ofNat 64 1 + BitVec.ofNat 64 k = a + BitVec.ofNat 64 (k + 1) := by
      intro k
      rw [BitVec.add_assoc, BitVec.ofNat_add, BitVec.add_comm (BitVec.ofNat 64 1)]
    obtain ⟨hforeign, hinstr⟩ := h 0 (by simp)
    rw [BitVec.add_zero] at hforeign hinstr
    refine ⟨hforeign, _, hinstr, ih fun k hk => ?_⟩
    have hnext := h (k + 1) (by simpa using hk)
    rw [List.getElem?_cons_succ] at hnext
    rw [hshift, hshift]
    exact hnext

end Program

/-! ## The calling convention -/

/-- From its first instruction in `s` to its return in `s'`: the function goes back to the address
on top of the stack and takes it off, and the registers that are not its own are as they were. -/
structure Returns (s s' : State) : Prop where
  rip : s'.rip = s.word (s.reg .rsp)
  rsp : s'.reg .rsp = s.reg .rsp + 8
  saved : ∀ r ∈ Reg.calleeSaved, s'.reg r = s.reg r

/-- Memory changes only in the function's part of the stack, `depth` bytes and the return address,
and in `own`. -/
def Changes (depth : Nat) (own : Set Nat) (s s' : State) : Prop :=
  ∀ a, a ∉ own → a + depth < (s.reg .rsp).toNat ∨ (s.reg .rsp).toNat + 8 ≤ a → s'.mem a = s.mem a

/-! ## Words in memory -/

/-- The words from an address on. -/
def storeWords : List Word → Nat → Mem → Mem
  | [], _, m => m
  | v :: vs, a, m => storeWords vs (a + 8) (store m a 8 v.toNat)

theorem storeWords_outside {vs : List Word} {a b : Nat} {m : Mem}
    (h : ¬ (a ≤ b ∧ b < a + 8 * vs.length)) : storeWords vs a m b = m b := by
  induction vs generalizing a m with
  | nil => rfl
  | cons v vs ih =>
    rw [List.length_cons] at h
    rw [storeWords, ih (by omega), store_outside (by omega)]

theorem load_storeWords {vs : List Word} {a : Nat} {m : Mem} {k : Nat} (hk : k < vs.length) :
    load (storeWords vs a m) (a + 8 * k) 8 = vs[k].toNat := by
  induction vs generalizing a m k with
  | nil => simp at hk
  | cons v vs ih =>
    cases k with
    | zero =>
      have hsame : load (storeWords vs (a + 8) (store m a 8 v.toNat)) a 8 =
          load (store m a 8 v.toNat) a 8 :=
        load_eq_iff.mpr fun b hb => storeWords_outside (by omega)
      rw [Nat.mul_zero, Nat.add_zero, storeWords, hsame, load_store_same]
      exact Nat.mod_eq_of_lt v.isLt
    | succ k =>
      have haddr : a + 8 * (k + 1) = a + 8 + 8 * k := by omega
      rw [haddr, storeWords, ih (by simpa using hk)]
      rfl

end X64
