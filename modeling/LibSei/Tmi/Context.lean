-- SUMMARY: The context switch of `tmi_asm.S`: `_ITM_beginTransaction`, `__sei_switch` and `__sei_switch2`, and where their caller continues.
import LibSei.X64.Machine

/-!
# The context switch

The compiler starts a transaction with a call of `_ITM_beginTransaction` and runs the
handler behind it. To run the handler once more, the library makes this call return once
more: the call saves what its caller expects to find on return, and a switch puts it back.
-/

namespace LibSei

open Memory X64

/-! ## The code -/

/-- `_ITM_beginTransaction`, up to the call. -/
def saveContext : List Instr := [
  .leaq 8 .rsp .rax,
  .subq 56 .rsp,
  .movqTo .rbp 0 .rsp,
  .movqTo .rbx 8 .rsp,
  .movqTo .r12 16 .rsp,
  .movqTo .r13 24 .rsp,
  .movqTo .r14 32 .rsp,
  .movqTo .r15 40 .rsp,
  .movqTo .rax 48 .rsp,
  .movq .rsp .rdi]

/-- `_ITM_beginTransaction`, with the address of `__sei_begin`. -/
def itmBeginTransaction (seiBegin : Word) : List Instr :=
  saveContext ++ [.call seiBegin, .addq 56 .rsp, .ret]

/-- `__sei_switch`, up to the jump. -/
def restoreContext : List Instr := [
  .movqFrom 0 .rdi .rbp,
  .movqFrom 8 .rdi .rbx,
  .movqFrom 16 .rdi .r12,
  .movqFrom 24 .rdi .r13,
  .movqFrom 32 .rdi .r14,
  .movqFrom 40 .rdi .r15,
  .movqFrom 48 .rdi .rsp,
  .movqFrom 56 .rdi .rdx,
  .movl .rsi .rax]

/-- `__sei_switch`. -/
def seiSwitch : List Instr := restoreContext ++ [.jmpq .rdx]

/-- `__sei_switch2`, up to the call. -/
def restoreAllButR15 : List Instr := [
  .movqFrom 0 .rcx .rbp,
  .movqFrom 8 .rcx .rbx,
  .movqFrom 16 .rcx .r12,
  .movqFrom 24 .rcx .r13,
  .movqFrom 32 .rcx .r14,
  .movqFrom 48 .rcx .rsp,
  .movq .rcx .r15]

/-- `__sei_switch2`, between the call and the jump. -/
def restoreR15 : List Instr := [
  .movq .r15 .rcx,
  .movqFrom 40 .rcx .r15,
  .movqFrom 56 .rcx .rdx,
  .movq .r8 .rsi,
  .movl .rsi .rax]

/-- `__sei_switch2`, with the address of `memcpy`. -/
def seiSwitch2 (memcpy : Word) : List Instr :=
  restoreAllButR15 ++ [.call memcpy] ++ restoreR15 ++ [.jmpq .rdx]

/-! ## Contexts -/

/-- `sei_ctx_t`. -/
@[ext] structure SeiCtx where
  rbp : Word
  rbx : Word
  r12 : Word
  r13 : Word
  r14 : Word
  r15 : Word
  rsp : Word
  ret : Word
  deriving DecidableEq

namespace SeiCtx

/-- The word at offset `d` of a structure at `a`. -/
def field (m : Mem) (a d : Nat) : Word := BitVec.ofNat 64 (load m (a + d) 8)

/-- The context in memory at an address. -/
def ofMem (m : Mem) (a : Nat) : SeiCtx where
  rbp := field m a 0
  rbx := field m a 8
  r12 := field m a 16
  r13 := field m a 24
  r14 := field m a 32
  r15 := field m a 40
  rsp := field m a 48
  ret := field m a 56

theorem ofMem_congr {m m' : Mem} {a a' : Nat} (h : ∀ i < 64, m (a + i) = m' (a' + i)) :
    ofMem m a = ofMem m' a' := by
  have hfield : ∀ d, d ≤ 56 → field m a d = field m' a' d := by
    intro d hd
    have hload : load m (a + d) 8 = load m' (a' + d) 8 := leValue_congr fun i hi => by
      rw [Nat.add_assoc, Nat.add_assoc]
      exact h (d + i) (by omega)
    rw [field, field, hload]
  ext1 <;> exact hfield _ (by decide)

/-- What the caller of a function expects on return, at the first instruction of the function. -/
def ofCaller (s : State) : SeiCtx where
  rbp := s.reg .rbp
  rbx := s.reg .rbx
  r12 := s.reg .r12
  r13 := s.reg .r13
  r14 := s.reg .r14
  r15 := s.reg .r15
  rsp := s.reg .rsp + 8
  ret := s.word (s.reg .rsp)

end SeiCtx

/-- The call whose context was saved has returned. -/
structure Resumed (c : SeiCtx) (s : State) : Prop where
  rip : s.rip = c.ret
  rsp : s.reg .rsp = c.rsp
  rbp : s.reg .rbp = c.rbp
  rbx : s.reg .rbx = c.rbx
  r12 : s.reg .r12 = c.r12
  r13 : s.reg .r13 = c.r13
  r14 : s.reg .r14 = c.r14
  r15 : s.reg .r15 = c.r15

theorem Resumed.congr {c : SeiCtx} {s s' : State} (h : Resumed c s) (hrip : s'.rip = s.rip)
    (hreg : s'.reg = s.reg) : Resumed c s' := by
  obtain ⟨h1, h2, h3, h4, h5, h6, h7, h8⟩ := h
  rw [← hrip] at h1
  rw [← hreg] at h2 h3 h4 h5 h6 h7 h8
  exact ⟨h1, h2, h3, h4, h5, h6, h7, h8⟩

/-- What `__sei_begin` does, in a process whose library data is `lib` and whose thread keeps its
context at `ctx`. -/
structure SeiBegin (depth : Nat) (lib : Set Nat) (ctx : Nat) (s s' : State) : Prop where
  returns : Returns s s'
  changes : Changes depth lib s s'
  context : ∀ i < 64, s'.mem (ctx + i) = s.mem ((s.reg .rdi).toNat + i)
  result : (s'.reg .rax).setWidth 32 = 1#32

/-! ## The first return -/

section Begin

variable {P : Program} {s : State} {entry seiBegin : Word} {f : State → State} {depth ctx : Nat}
  {lib : Set Nat}

/-- The words that are saved. -/
def callerWords (s : State) : List Word :=
  [s.reg .rbp, s.reg .rbx, s.reg .r12, s.reg .r13, s.reg .r14, s.reg .r15, s.reg .rsp + 8]

/-- They are stored below the return address. -/
theorem saveContext_mem (hlow : 56 ≤ (s.reg .rsp).toNat) :
    (Program.effects saveContext s).mem =
      storeWords (callerWords s) ((s.reg .rsp).toNat - 56) s.mem := by
  have hsp : ∀ d : Nat, d ≤ 48 →
      (s.reg .rsp - BitVec.ofNat 64 56 + BitVec.ofNat 64 d).toNat = (s.reg .rsp).toNat - 56 + d := by
    intro d hd
    have hlt := (s.reg .rsp).isLt
    rw [toNat_add (by rw [toNat_sub hlow]; omega), toNat_sub hlow]
  simp only [Program.effects, saveContext, List.foldl_cons, List.foldl_nil, Instr.effect,
    State.reg_set, State.mem_set, State.reg_setWord, State.mem_setWord, callerWords, storeWords,
    Function.update_apply, reduceCtorEq, if_true, if_false, hsp, Nat.add_assoc, Nat.reduceAdd,
    Nat.add_zero, Nat.reduceLeDiff, Nat.zero_le]
  rfl

theorem saveContext_reg :
    (Program.effects saveContext s).reg .rsp = s.reg .rsp - 56 ∧
      (Program.effects saveContext s).reg .rdi = s.reg .rsp - 56 ∧
      ∀ r ∈ Reg.calleeSaved, (Program.effects saveContext s).reg r = s.reg r := by
  refine ⟨rfl, rfl, fun r hr => ?_⟩
  simp only [Reg.calleeSaved, List.mem_cons, List.not_mem_nil, or_false] at hr
  rcases hr with rfl | rfl | rfl | rfl | rfl | rfl <;> rfl

theorem saveContext_above (hlow : 56 ≤ (s.reg .rsp).toNat) {a : Nat}
    (ha : a + 56 < (s.reg .rsp).toNat ∨ (s.reg .rsp).toNat ≤ a) :
    (Program.effects saveContext s).mem a = s.mem a := by
  have hlen : (callerWords s).length = 7 := rfl
  rw [saveContext_mem hlow, storeWords_outside (by omega)]

/-- The saved words and the return address above them are the context of the caller. -/
theorem saveContext_ofMem (hlow : 56 ≤ (s.reg .rsp).toNat) :
    SeiCtx.ofMem (Program.effects saveContext s).mem ((s.reg .rsp).toNat - 56) =
      SeiCtx.ofCaller s := by
  have hfield : ∀ k (hk : k < (callerWords s).length),
      SeiCtx.field (Program.effects saveContext s).mem ((s.reg .rsp).toNat - 56) (8 * k) =
        (callerWords s)[k] := by
    intro k hk
    rw [SeiCtx.field, saveContext_mem hlow, load_storeWords hk, BitVec.ofNat_toNat, BitVec.setWidth_eq]
  have hret : load (Program.effects saveContext s).mem ((s.reg .rsp).toNat - 56 + 56) 8 =
      load s.mem (s.reg .rsp).toNat 8 := by
    rw [Nat.sub_add_cancel hlow]
    exact load_eq_iff.mpr fun b hb => saveContext_above hlow (.inr hb.1)
  have hlen : (callerWords s).length = 7 := rfl
  ext1
  · exact hfield 0 (by omega)
  · exact hfield 1 (by omega)
  · exact hfield 2 (by omega)
  · exact hfield 3 (by omega)
  · exact hfield 4 (by omega)
  · exact hfield 5 (by omega)
  · exact hfield 6 (by omega)
  · exact congrArg (BitVec.ofNat 64) hret

/-- The state in which `__sei_begin` starts. -/
def callBegin (s : State) (next seiBegin : Word) : State :=
  (Program.effects saveContext s).pushCall seiBegin next

theorem callBegin_reg {next : Word} :
    (callBegin s next seiBegin).reg .rsp = s.reg .rsp - 64 ∧
      (callBegin s next seiBegin).reg .rdi = s.reg .rsp - 56 ∧
      ∀ r ∈ Reg.calleeSaved, (callBegin s next seiBegin).reg r = s.reg r := by
  obtain ⟨hrsp, hrdi, hsaved⟩ := saveContext_reg (s := s)
  refine ⟨?_, ?_, fun r hr => ?_⟩
  · rw [callBegin, State.rsp_pushCall, hrsp, BitVec.sub_sub]
    rfl
  · rw [callBegin, State.reg_pushCall _ _ _ (by decide), hrdi]
  · have hne : r ≠ .rsp := fun h => by subst h; revert hr; decide
    rw [callBegin, State.reg_pushCall _ _ _ hne, hsaved r hr]

theorem callBegin_mem {next : Word} {a : Nat} (hlow : 64 ≤ (s.reg .rsp).toNat)
    (ha : a + 64 < (s.reg .rsp).toNat ∨ (s.reg .rsp).toNat ≤ a + 56) :
    (callBegin s next seiBegin).mem a = (Program.effects saveContext s).mem a := by
  have hsp : (s.reg .rsp - 56 - 8).toNat = (s.reg .rsp).toNat - 64 := by
    rw [show s.reg .rsp - 56 - 8 = s.reg .rsp - 64 from BitVec.sub_sub _ _ _]
    exact toNat_sub hlow
  rw [callBegin, State.mem_pushCall, saveContext_reg.1, store_outside (by rw [hsp]; omega)]

/-- The first return: `_ITM_beginTransaction` gives 1 back to its caller, and the context of the
call stands in the memory of the thread. -/
theorem beginTransaction_returns (hcode : P.Holds entry (itmBeginTransaction seiBegin))
    (hforeign : P.foreign seiBegin = some f)
    (hf : ∀ next, SeiBegin depth lib ctx (callBegin s next seiBegin) (f (callBegin s next seiBegin)))
    (hs : s.rip = entry) (hlow : 64 ≤ (s.reg .rsp).toNat)
    (hlib : ∀ a, (s.reg .rsp).toNat ≤ a → a < (s.reg .rsp).toNat + 8 → a ∉ lib) :
    ∃ s', P.Steps s s' ∧ Resumed (SeiCtx.ofCaller s) s' ∧ (s'.reg .rax).setWidth 32 = 1#32 ∧
      SeiCtx.ofMem s'.mem ctx = SeiCtx.ofCaller s ∧
      ∀ a ∉ lib, a + (depth + 64) < (s.reg .rsp).toNat ∨ (s.reg .rsp).toNat ≤ a →
        s'.mem a = s.mem a := by
  obtain ⟨n1, hcall, hsave⟩ := @Program.Holds.straight P entry saveContext _ s hcode hs (by decide)
  obtain ⟨n2, hrest, hcalled⟩ := hcall.callForeign (t := Program.effects saveContext s) hforeign
  have hbegin := hf n2
  have hrip : (f (callBegin s n2 seiBegin)).rip = n2 := hbegin.returns.rip.trans (State.word_pushCall _ _ _)
  obtain ⟨n3, hret, hadd⟩ := @Program.Holds.straight P n2 [.addq 56 .rsp] _ _ hrest hrip (by decide)
  obtain ⟨hrsp, hrdi, hsaved⟩ := @callBegin_reg s seiBegin n2
  have hsp : ((callBegin s n2 seiBegin).reg .rsp).toNat = (s.reg .rsp).toNat - 64 := by
    rw [hrsp]
    exact toNat_sub hlow
  have hmem : ∀ a ∉ lib, a + (depth + 64) < (s.reg .rsp).toNat ∨ (s.reg .rsp).toNat ≤ a →
      (f (callBegin s n2 seiBegin)).mem a = s.mem a := by
    intro a ha hout
    rw [hbegin.changes a ha (by omega), callBegin_mem hlow (by omega),
      saveContext_above (by omega) (by omega)]
  have hback : (f (callBegin s n2 seiBegin)).reg .rsp + BitVec.ofNat 64 56 = s.reg .rsp := by
    rw [hbegin.returns.rsp, hrsp, BitVec.add_assoc]
    exact BitVec.sub_add_cancel _ _
  have hkept : ∀ r ∈ Reg.calleeSaved, (f (callBegin s n2 seiBegin)).reg r = s.reg r :=
    fun r hr => (hbegin.returns.saved r hr).trans (hsaved r hr)
  have hcontext : ∀ i < 64, (f (callBegin s n2 seiBegin)).mem (ctx + i) =
      (Program.effects saveContext s).mem ((s.reg .rsp).toNat - 56 + i) := by
    intro i hi
    have hsub : (s.reg .rsp - 56).toNat = (s.reg .rsp).toNat - 56 := @toNat_sub _ 56 (by omega)
    rw [hbegin.context i hi, hrdi, hsub, callBegin_mem hlow (by omega)]
  have hword : (f (callBegin s n2 seiBegin)).word (s.reg .rsp) = s.word (s.reg .rsp) := by
    have hload : load (f (callBegin s n2 seiBegin)).mem (s.reg .rsp).toNat 8 =
        load s.mem (s.reg .rsp).toNat 8 :=
      load_eq_iff.mpr fun b hb => hmem b (hlib b hb.1 hb.2) (.inr hb.1)
    rw [State.word, State.word, hload]
  have hstate : Program.effects [.addq 56 .rsp] (f (callBegin s n2 seiBegin)) =
      (f (callBegin s n2 seiBegin)).set .rsp (s.reg .rsp) := by
    rw [← hback]
    rfl
  rw [hstate] at hadd
  obtain ⟨s', hstep, hrip', hreg, hmem'⟩ :=
    hret.ret (t := (f (callBegin s n2 seiBegin)).set .rsp (s.reg .rsp))
  rw [State.reg_set, Function.update_self, State.word_set, hword] at hrip'
  rw [State.reg_set, Function.update_idem, Function.update_self] at hreg
  rw [State.mem_set] at hmem'
  have hkept' : ∀ r ∈ Reg.calleeSaved, s'.reg r = s.reg r := by
    intro r hr
    have hne : r ≠ .rsp := fun h => by subst h; revert hr; decide
    rw [hreg, Function.update_of_ne hne, hkept r hr]
  refine ⟨s', ((hsave.trans hcalled).trans hadd).tail hstep, ?_, ?_, ?_, fun a ha hout => ?_⟩
  · exact {
      rip := hrip'
      rsp := by rw [hreg, Function.update_self]; rfl
      rbp := hkept' .rbp (by decide)
      rbx := hkept' .rbx (by decide)
      r12 := hkept' .r12 (by decide)
      r13 := hkept' .r13 (by decide)
      r14 := hkept' .r14 (by decide)
      r15 := hkept' .r15 (by decide) }
  · rw [hreg, Function.update_of_ne (by decide)]
    exact hbegin.result
  · rw [hmem']
    exact (SeiCtx.ofMem_congr hcontext).trans (saveContext_ofMem (by omega))
  · rw [hmem']
    exact hmem a ha hout

end Begin

/-! ## The returns after it -/

section Switch

variable {P : Program} {s : State} {entry : Word}

theorem word_ctx {a d : Nat} {base : Word} (hbase : base.toNat = a) (hctx : a + 64 ≤ 2 ^ 64)
    (hd : d ≤ 56) : s.word (base + BitVec.ofNat 64 d) = SeiCtx.field s.mem a d := by
  subst hbase
  rw [State.word, toNat_add (by omega), SeiCtx.field]

/-- The registers are loaded from the context. -/
theorem restoreContext_reg (hctx : (s.reg .rdi).toNat + 64 ≤ 2 ^ 64) :
    Resumed (SeiCtx.ofMem s.mem (s.reg .rdi).toNat)
        ((Program.effects restoreContext s).goto ((Program.effects restoreContext s).reg .rdx)) ∧
      (Program.effects restoreContext s).reg .rax = ((s.reg .rsi).setWidth 32).setWidth 64 ∧
      (Program.effects restoreContext s).mem = s.mem := by
  have hfield : ∀ d : Nat, d ≤ 56 →
      s.word (s.reg .rdi + BitVec.ofNat 64 d) = SeiCtx.field s.mem (s.reg .rdi).toNat d :=
    fun d hd => word_ctx rfl hctx hd
  simp only [Program.effects, restoreContext, List.foldl_cons, List.foldl_nil]
  simp only [Instr.effect]
  refine ⟨⟨?_, ?_, ?_, ?_, ?_, ?_, ?_, ?_⟩, ?_, ?_⟩
  all_goals simp only [State.rip_goto, State.reg_goto, State.word_set, State.mem_set]
  all_goals simp only [State.reg_set, Function.update_apply, reduceCtorEq, if_true, if_false]
  · exact hfield 56 (by decide)
  · exact hfield 48 (by decide)
  · exact hfield 0 (by decide)
  · exact hfield 8 (by decide)
  · exact hfield 16 (by decide)
  · exact hfield 24 (by decide)
  · exact hfield 32 (by decide)
  · exact hfield 40 (by decide)

/-- `__sei_switch` makes the call whose context it is given return once more, with its second
argument as the result. -/
theorem seiSwitch_resumes (hcode : P.Holds entry seiSwitch) (hs : s.rip = entry)
    (hctx : (s.reg .rdi).toNat + 64 ≤ 2 ^ 64) :
    ∃ s', P.Steps s s' ∧ Resumed (SeiCtx.ofMem s.mem (s.reg .rdi).toNat) s' ∧
      s'.reg .rax = ((s.reg .rsi).setWidth 32).setWidth 64 ∧ s'.mem = s.mem := by
  obtain ⟨n1, hjump, hrestore⟩ := @Program.Holds.straight P entry restoreContext _ s hcode hs (by decide)
  obtain ⟨hresumed, hrax, hmem⟩ := restoreContext_reg hctx
  obtain ⟨s', hstep, hrip, hreg, hmem'⟩ := hjump.jump (t := Program.effects restoreContext s)
  refine ⟨s', hrestore.tail hstep, hresumed.congr hrip hreg, ?_, hmem'.trans hmem⟩
  rw [hreg]
  exact hrax

end Switch

/-! ## Every return -/

section Returns

variable {P : Program} {s : State} {entry switch seiBegin : Word} {f : State → State} {depth ctx : Nat}
  {lib : Set Nat}

/-- The call of `_ITM_beginTransaction` returns 1, and it returns again for every switch: whatever
has run in between, as long as the context of the thread was left alone, the caller finds the same
place, stack and registers, and the argument of the switch as the result. -/
theorem beginTransaction_returns_again (hcode : P.Holds entry (itmBeginTransaction seiBegin))
    (hswitch : P.Holds switch seiSwitch) (hforeign : P.foreign seiBegin = some f)
    (hf : ∀ next, SeiBegin depth lib ctx (callBegin s next seiBegin) (f (callBegin s next seiBegin)))
    (hs : s.rip = entry) (hlow : 64 ≤ (s.reg .rsp).toNat)
    (hlib : ∀ a, (s.reg .rsp).toNat ≤ a → a < (s.reg .rsp).toNat + 8 → a ∉ lib)
    (hctx : ctx + 64 ≤ 2 ^ 64) :
    ∃ s', P.Steps s s' ∧ Resumed (SeiCtx.ofCaller s) s' ∧ (s'.reg .rax).setWidth 32 = 1#32 ∧
      (∀ a ∉ lib, a + (depth + 64) < (s.reg .rsp).toNat ∨ (s.reg .rsp).toNat ≤ a →
        s'.mem a = s.mem a) ∧
      ∀ t, t.rip = switch → (t.reg .rdi).toNat = ctx →
        (∀ i < 64, t.mem (ctx + i) = s'.mem (ctx + i)) →
        ∃ t', P.Steps t t' ∧ Resumed (SeiCtx.ofCaller s) t' ∧
          t'.reg .rax = ((t.reg .rsi).setWidth 32).setWidth 64 ∧ t'.mem = t.mem := by
  obtain ⟨s', hsteps, hresumed, hrax, hsaved, hmem⟩ :=
    beginTransaction_returns hcode hforeign hf hs hlow hlib
  refine ⟨s', hsteps, hresumed, hrax, hmem, fun t ht hrdi hkept => ?_⟩
  have hagain := seiSwitch_resumes hswitch ht (by rw [hrdi]; exact hctx)
  rw [hrdi, SeiCtx.ofMem_congr hkept, hsaved] at hagain
  exact hagain

/-- A `__sei_begin` that keeps its context at address 9000 and does nothing else. -/
def plainSeiBegin (s : State) : State where
  rip := s.word (s.reg .rsp)
  reg := Function.update (Function.update s.reg .rsp (s.reg .rsp + 8)) .rax 1
  mem a := if 9000 ≤ a ∧ a < 9064 then s.mem ((s.reg .rdi).toNat + (a - 9000)) else s.mem a

theorem plainSeiBegin_spec (s : State) :
    SeiBegin 0 { a | 9000 ≤ a ∧ a < 9064 } 9000 s (plainSeiBegin s) where
  returns := {
    rip := rfl
    rsp := rfl
    saved := fun r hr => by
      have hrsp : r ≠ .rsp := fun h => by subst h; revert hr; decide
      have hrax : r ≠ .rax := fun h => by subst h; revert hr; decide
      simp only [plainSeiBegin, Function.update_of_ne hrax, Function.update_of_ne hrsp] }
  changes a ha _ := if_neg ha
  context i hi := by
    simp only [plainSeiBegin]
    rw [if_pos (by omega), Nat.add_sub_cancel_left]
  result := by simp only [plainSeiBegin, Function.update_self]; rfl

/-- `_ITM_beginTransaction` at address 100, `__sei_switch` at 200 and `__sei_begin` at 5000. -/
def plainProgram : Program where
  instr a := if a.toNat < 200 then ((itmBeginTransaction 5000)[a.toNat - 100]?).map fun i => (i, a + 1)
    else (seiSwitch[a.toNat - 200]?).map fun i => (i, a + 1)
  foreign a := if a = 5000 then some plainSeiBegin else none

/-- The call returns 1, and after a switch with the argument 0 it returns 0. -/
theorem beginTransaction_returns_again_plain :
    ∃ s', plainProgram.Steps ⟨100, fun _ => 4096, fun _ => 1⟩ s' ∧
      Resumed (SeiCtx.ofCaller ⟨100, fun _ => 4096, fun _ => 1⟩) s' ∧
      (s'.reg .rax).setWidth 32 = 1#32 ∧
      ∃ t', plainProgram.Steps ⟨200, fun r => if r = .rdi then 9000 else 0, s'.mem⟩ t' ∧
        Resumed (SeiCtx.ofCaller ⟨100, fun _ => 4096, fun _ => 1⟩) t' ∧ t'.reg .rax = 0 := by
  have hcode : plainProgram.Holds 100 (itmBeginTransaction 5000) :=
    Program.holds_of_getElem? (by decide)
  have hswitch : plainProgram.Holds 200 seiSwitch := Program.holds_of_getElem? (by decide)
  obtain ⟨s', hsteps, hresumed, hrax, _, hagain⟩ := @beginTransaction_returns_again plainProgram
    ⟨100, fun _ => 4096, fun _ => 1⟩ 100 200 5000 _ _ _ _ hcode hswitch rfl
    (fun _ => plainSeiBegin_spec _) rfl (by decide)
    (fun a hlo hhi ha => by
      have hsp : (4096 : Word).toNat = 4096 := rfl
      simp only [hsp, Set.mem_ofPred_eq] at hlo hhi ha
      omega) (by decide)
  obtain ⟨t', hsteps', hresumed', hrax', _⟩ := hagain
    ⟨200, fun r => if r = .rdi then 9000 else 0, s'.mem⟩ rfl rfl fun _ _ => rfl
  exact ⟨s', hsteps, hresumed, hrax, t', hsteps', hresumed', hrax'⟩

end Returns

/-! ## The return with a copy of the stack -/

section Switch2

variable {P : Program} {s : State} {entry memcpy : Word} {f : State → State} {depth : Nat}

/-- What `memcpy` is called with lies apart, and its target above its own part of the stack. -/
structure MemcpyArgs (s : State) : Prop where
  above : (s.reg .rsp).toNat + 8 ≤ (s.reg .rdi).toNat
  apart : (s.reg .rsi).toNat + (s.reg .rdx).toNat ≤ (s.reg .rdi).toNat ∨
    (s.reg .rdi).toNat + (s.reg .rdx).toNat ≤ (s.reg .rsi).toNat

/-- The bytes that a `memcpy` with these arguments writes. -/
def copyTarget (s : State) : Set Nat :=
  { a | (s.reg .rdi).toNat ≤ a ∧ a < (s.reg .rdi).toNat + (s.reg .rdx).toNat }

/-- What `memcpy` does. -/
structure Memcpy (depth : Nat) (s s' : State) : Prop where
  returns : Returns s s'
  changes : Changes depth (copyTarget s) s s'
  copied : ∀ i < (s.reg .rdx).toNat,
    s'.mem ((s.reg .rdi).toNat + i) = s.mem ((s.reg .rsi).toNat + i)

/-- The state in which `memcpy` starts. -/
def callMemcpy (s : State) (next memcpy : Word) : State :=
  (Program.effects restoreAllButR15 s).pushCall memcpy next

theorem restoreAllButR15_reg :
    (Program.effects restoreAllButR15 s).reg .rbp = s.word (s.reg .rcx + BitVec.ofNat 64 0) ∧
    (Program.effects restoreAllButR15 s).reg .rbx = s.word (s.reg .rcx + BitVec.ofNat 64 8) ∧
    (Program.effects restoreAllButR15 s).reg .r12 = s.word (s.reg .rcx + BitVec.ofNat 64 16) ∧
    (Program.effects restoreAllButR15 s).reg .r13 = s.word (s.reg .rcx + BitVec.ofNat 64 24) ∧
    (Program.effects restoreAllButR15 s).reg .r14 = s.word (s.reg .rcx + BitVec.ofNat 64 32) ∧
    (Program.effects restoreAllButR15 s).reg .rsp = s.word (s.reg .rcx + BitVec.ofNat 64 48) ∧
    (Program.effects restoreAllButR15 s).reg .r15 = s.reg .rcx ∧
    (∀ r ∈ [Reg.rdi, .rsi, .rdx, .r8], (Program.effects restoreAllButR15 s).reg r = s.reg r) ∧
    (Program.effects restoreAllButR15 s).mem = s.mem := by
  simp only [Program.effects, restoreAllButR15, List.foldl_cons, List.foldl_nil]
  simp only [Instr.effect]
  refine ⟨?_, ?_, ?_, ?_, ?_, ?_, ?_, fun r hr => ?_, ?_⟩
  all_goals simp only [State.word_set, State.mem_set]
  all_goals simp only [State.reg_set, Function.update_apply, reduceCtorEq, if_true, if_false]
  simp only [List.mem_cons, List.not_mem_nil, or_false] at hr
  rcases hr with rfl | rfl | rfl | rfl <;> simp only [reduceCtorEq, if_false]

theorem restoreR15_reg :
    (Program.effects restoreR15 s).reg .r15 = s.word (s.reg .r15 + BitVec.ofNat 64 40) ∧
    (Program.effects restoreR15 s).reg .rdx = s.word (s.reg .r15 + BitVec.ofNat 64 56) ∧
    (Program.effects restoreR15 s).reg .rax = ((s.reg .r8).setWidth 32).setWidth 64 ∧
    (∀ r ∈ [Reg.rsp, .rbp, .rbx, .r12, .r13, .r14], (Program.effects restoreR15 s).reg r = s.reg r) ∧
    (Program.effects restoreR15 s).mem = s.mem := by
  simp only [Program.effects, restoreR15, List.foldl_cons, List.foldl_nil]
  simp only [Instr.effect]
  refine ⟨?_, ?_, ?_, fun r hr => ?_, ?_⟩
  all_goals simp only [State.word_set, State.mem_set]
  all_goals simp only [State.reg_set, Function.update_apply, reduceCtorEq, if_true, if_false]
  simp only [List.mem_cons, List.not_mem_nil, or_false] at hr
  rcases hr with rfl | rfl | rfl | rfl | rfl | rfl <;> simp only [reduceCtorEq, if_false]

/-- In this state the registers are those of the context but for `r15`, which holds its address. -/
structure MemcpyCalled (c : SeiCtx) (s u : State) : Prop where
  rsp : (u.reg .rsp).toNat = c.rsp.toNat - 8
  back : u.reg .rsp + 8 = c.rsp
  rbp : u.reg .rbp = c.rbp
  rbx : u.reg .rbx = c.rbx
  r12 : u.reg .r12 = c.r12
  r13 : u.reg .r13 = c.r13
  r14 : u.reg .r14 = c.r14
  r15 : u.reg .r15 = s.reg .rcx
  args : ∀ r ∈ [Reg.rdi, .rsi, .rdx, .r8], u.reg r = s.reg r
  mem : ∀ a, a + 8 < c.rsp.toNat ∨ c.rsp.toNat ≤ a → u.mem a = s.mem a

theorem callMemcpy_spec {c : SeiCtx} {next : Word} (hctx : (s.reg .rcx).toNat + 64 ≤ 2 ^ 64)
    (hc : c = SeiCtx.ofMem s.mem (s.reg .rcx).toNat) (hlow : 8 ≤ c.rsp.toNat) :
    MemcpyCalled c s (callMemcpy s next memcpy) := by
  obtain ⟨hrbp, hrbx, hr12, hr13, hr14, hrsp, hr15, hargs, hmem⟩ := @restoreAllButR15_reg s
  have hfield : ∀ d : Nat, d ≤ 56 →
      s.word (s.reg .rcx + BitVec.ofNat 64 d) = SeiCtx.field s.mem (s.reg .rcx).toNat d :=
    fun d hd => word_ctx rfl hctx hd
  have hreg : ∀ r, r ≠ .rsp →
      (callMemcpy s next memcpy).reg r = (Program.effects restoreAllButR15 s).reg r :=
    fun r hr => State.reg_pushCall _ _ _ hr
  have hrsp' : (Program.effects restoreAllButR15 s).reg .rsp = c.rsp := by
    rw [hrsp, hfield 48 (by decide), hc]
    rfl
  have hsp : (callMemcpy s next memcpy).reg .rsp = c.rsp - 8 := by
    rw [callMemcpy, State.rsp_pushCall, hrsp']
  have hspNat : (c.rsp - 8).toNat = c.rsp.toNat - 8 := @toNat_sub _ 8 hlow
  exact {
    rsp := by rw [hsp, hspNat]
    back := by rw [hsp, BitVec.sub_add_cancel]
    rbp := by rw [hreg _ (by decide), hrbp, hfield 0 (by decide), hc]; rfl
    rbx := by rw [hreg _ (by decide), hrbx, hfield 8 (by decide), hc]; rfl
    r12 := by rw [hreg _ (by decide), hr12, hfield 16 (by decide), hc]; rfl
    r13 := by rw [hreg _ (by decide), hr13, hfield 24 (by decide), hc]; rfl
    r14 := by rw [hreg _ (by decide), hr14, hfield 32 (by decide), hc]; rfl
    r15 := by rw [hreg _ (by decide), hr15]
    args := fun r hr => by
      have hne : r ≠ .rsp := fun h => by subst h; revert hr; decide
      rw [hreg r hne, hargs r hr]
    mem := fun a ha => by
      rw [callMemcpy, State.mem_pushCall, hrsp', hmem, store_outside (by rw [hspNat]; omega)] }

/-- `__sei_switch2` copies the saved part of the stack back and makes the call whose context it is
given return once more. The result is kept over the call of `memcpy` in a register that belongs
to the callee, so it arrives if `memcpy` leaves that register alone. -/
theorem seiSwitch2_resumes {c : SeiCtx} (hcode : P.Holds entry (seiSwitch2 memcpy))
    (hforeign : P.foreign memcpy = some f) (hf : ∀ u, MemcpyArgs u → Memcpy depth u (f u))
    (hs : s.rip = entry) (hctx : (s.reg .rcx).toNat + 64 ≤ 2 ^ 64)
    (hc : c = SeiCtx.ofMem s.mem (s.reg .rcx).toNat) (hlow : 8 ≤ c.rsp.toNat)
    (hdst : c.rsp.toNat ≤ (s.reg .rdi).toNat)
    (hapart : (s.reg .rsi).toNat + (s.reg .rdx).toNat ≤ (s.reg .rdi).toNat ∨
      (s.reg .rdi).toNat + (s.reg .rdx).toNat ≤ (s.reg .rsi).toNat)
    (hsrc : (s.reg .rsi).toNat + (s.reg .rdx).toNat + 8 ≤ c.rsp.toNat ∨
      c.rsp.toNat ≤ (s.reg .rsi).toNat)
    (hkeep : ∀ i < 64, (s.reg .rcx).toNat + i ∉ copyTarget s ∧
      ((s.reg .rcx).toNat + i + (depth + 8) < c.rsp.toNat ∨ c.rsp.toNat ≤ (s.reg .rcx).toNat + i)) :
    ∃ s', P.Steps s s' ∧ Resumed c s' ∧
      (∀ i < (s.reg .rdx).toNat, s'.mem ((s.reg .rdi).toNat + i) = s.mem ((s.reg .rsi).toNat + i)) ∧
      (∀ a ∉ copyTarget s, a + (depth + 8) < c.rsp.toNat ∨ c.rsp.toNat ≤ a → s'.mem a = s.mem a) ∧
      ((∀ u, (f u).reg .r8 = u.reg .r8) →
        s'.reg .rax = ((s.reg .r8).setWidth 32).setWidth 64) := by
  obtain ⟨n1, hcall, hrestore⟩ := @Program.Holds.straight P entry restoreAllButR15 _ s
    (by simpa only [seiSwitch2, List.append_assoc] using hcode) hs (by decide)
  obtain ⟨n2, hrest, hcalled⟩ := hcall.callForeign (t := Program.effects restoreAllButR15 s) hforeign
  have hu := @callMemcpy_spec s memcpy c n2 hctx hc hlow
  have hback : (callMemcpy s n2 memcpy).word ((callMemcpy s n2 memcpy).reg .rsp) = n2 :=
    State.word_pushCall _ _ _
  have hcopy : P.Steps s (f (callMemcpy s n2 memcpy)) := hrestore.trans hcalled
  generalize callMemcpy s n2 memcpy = u at hu hback hcopy
  have hrdi := hu.args .rdi (by decide)
  have hrsi := hu.args .rsi (by decide)
  have hrdx := hu.args .rdx (by decide)
  have hsp := hu.rsp
  have hmemcpy : Memcpy depth u (f u) := by
    refine hf u ⟨?_, ?_⟩
    · rw [hrdi]
      omega
    · rw [hrdi, hrsi, hrdx]
      exact hapart
  have htarget : copyTarget u = copyTarget s := by rw [copyTarget, copyTarget, hrdi, hrdx]
  have hmem : ∀ a ∉ copyTarget s, a + (depth + 8) < c.rsp.toNat ∨ c.rsp.toNat ≤ a →
      (f u).mem a = s.mem a := by
    intro a ha hout
    rw [hmemcpy.changes a (htarget ▸ ha) (by omega), hu.mem a (by omega)]
  -- the context is where it was, so what is still to be loaded is what it holds
  have hsame : SeiCtx.ofMem (f u).mem (s.reg .rcx).toNat = c := by
    rw [hc]
    exact SeiCtx.ofMem_congr fun i hi => hmem _ (hkeep i hi).1 (hkeep i hi).2
  obtain ⟨n3, hjump, hload⟩ := @Program.Holds.straight P n2 restoreR15 _ (f u) hrest
    (hmemcpy.returns.rip.trans hback) (by decide)
  obtain ⟨hr15, hrdx', hrax, hkept, hmem'⟩ := @restoreR15_reg (f u)
  obtain ⟨s', hstep, hrip, hreg, hmem''⟩ := hjump.jump (t := Program.effects restoreR15 (f u))
  have hctx15 : (f u).reg .r15 = s.reg .rcx := (hmemcpy.returns.saved .r15 (by decide)).trans hu.r15
  have hfield : ∀ d : Nat, d ≤ 56 → (f u).word ((f u).reg .r15 + BitVec.ofNat 64 d) =
      SeiCtx.field (f u).mem (s.reg .rcx).toNat d := by
    intro d hd
    rw [hctx15]
    exact word_ctx rfl hctx hd
  have hsaved : ∀ r ∈ Reg.calleeSaved, r ≠ .r15 → s'.reg r = u.reg r := by
    intro r hr hne
    rw [hreg, hkept r (by cases r <;> first | decide | (exfalso; revert hr; decide) | exact absurd rfl hne),
      hmemcpy.returns.saved r hr]
  refine ⟨s', (hcopy.trans hload).tail hstep, ?_, fun i hi => ?_, fun a ha hout => ?_, fun hr8 => ?_⟩
  · exact {
      rip := by rw [hrip, hrdx', hfield 56 (by decide), ← hsame]; rfl
      rsp := by rw [hreg, hkept .rsp (by decide), hmemcpy.returns.rsp, hu.back]
      rbp := (hsaved .rbp (by decide) (by decide)).trans hu.rbp
      rbx := (hsaved .rbx (by decide) (by decide)).trans hu.rbx
      r12 := (hsaved .r12 (by decide) (by decide)).trans hu.r12
      r13 := (hsaved .r13 (by decide) (by decide)).trans hu.r13
      r14 := (hsaved .r14 (by decide) (by decide)).trans hu.r14
      r15 := by rw [hreg, hr15, hfield 40 (by decide), ← hsame]; rfl }
  · rw [hmem'', hmem', ← hrdi, hmemcpy.copied i (by rw [hrdx]; exact hi), hrsi, hu.mem _ (by omega)]
  · rw [hmem'', hmem', hmem a ha hout]
  · rw [hreg, hrax, hr8 u, hu.args .r8 (by decide)]

/-- A `memcpy` that uses no stack and no register. -/
def plainMemcpy (s : State) : State where
  rip := s.word (s.reg .rsp)
  reg := Function.update s.reg .rsp (s.reg .rsp + 8)
  mem a := if (s.reg .rdi).toNat ≤ a ∧ a < (s.reg .rdi).toNat + (s.reg .rdx).toNat then
    s.mem ((s.reg .rsi).toNat + (a - (s.reg .rdi).toNat)) else s.mem a

theorem plainMemcpy_spec (s : State) : Memcpy 0 s (plainMemcpy s) where
  returns := {
    rip := rfl
    rsp := rfl
    saved := fun r hr => by
      have hrsp : r ≠ .rsp := fun h => by subst h; revert hr; decide
      simp only [plainMemcpy, Function.update_of_ne hrsp] }
  changes a ha _ := if_neg ha
  copied i hi := by
    simp only [plainMemcpy]
    rw [if_pos (by omega), Nat.add_sub_cancel_left]

/-- `__sei_switch2` at address 300 and `memcpy` at 6000. -/
def plainProgram2 : Program where
  instr a := ((seiSwitch2 6000)[a.toNat - 300]?).map fun i => (i, a + 1)
  foreign a := if a = 6000 then some plainMemcpy else none

/-- Eight bytes of the stack at 4096 are put back from 9064. The context at 9000 is that of a call
from a function with its stack pointer at 4096. -/
def beforeSwitch2 : State where
  rip := 300
  reg r := match r with
    | .rcx => 9000
    | .rdi => 4096
    | .rsi => 9064
    | .rdx => 8
    | _ => 1
  mem a := if a = 9049 then 16 else 0

theorem seiSwitch2_resumes_plain :
    ∃ s', plainProgram2.Steps beforeSwitch2 s' ∧
      Resumed (SeiCtx.ofMem beforeSwitch2.mem 9000) s' ∧ s'.reg .rax = 1 := by
  have hcode : plainProgram2.Holds 300 (seiSwitch2 6000) := Program.holds_of_getElem? (by decide)
  have hrsp : (SeiCtx.ofMem beforeSwitch2.mem 9000).rsp.toNat = 4096 := by decide
  obtain ⟨s', hsteps, hresumed, _, _, hrax⟩ := @seiSwitch2_resumes plainProgram2 beforeSwitch2 300 6000
    plainMemcpy 0 (SeiCtx.ofMem beforeSwitch2.mem 9000) hcode rfl (fun u _ => plainMemcpy_spec u) rfl
    (by decide) rfl (by rw [hrsp]; decide) (by rw [hrsp]; decide) (by decide) (by rw [hrsp]; decide)
    (fun i hi => by
      rw [hrsp]
      have hrcx : (beforeSwitch2.reg .rcx).toNat = 9000 := rfl
      have hrdi : (beforeSwitch2.reg .rdi).toNat = 4096 := rfl
      have hrdx : (beforeSwitch2.reg .rdx).toNat = 8 := rfl
      simp only [copyTarget, Set.mem_ofPred_eq, hrcx, hrdi, hrdx]
      omega)
  have hr8 : ∀ u, (plainMemcpy u).reg .r8 = u.reg .r8 := fun u => by
    simp only [plainMemcpy, Function.update_of_ne (show Reg.r8 ≠ .rsp by decide)]
  refine ⟨s', hsteps, hresumed, (hrax hr8).trans ?_⟩
  decide

end Switch2

end LibSei
