-- SUMMARY: The block functions and allocation calls of the transactional interface on a thread, and what they leave in memory and in the log.
import LibSei.Abuf.Capacity
import LibSei.Itm.Memmove
import LibSei.Tmi.Phases

/-!
# Block functions on a thread

`_ITM_memcpyRtWt` and `_ITM_memsetW` ask once whether the address is to be ignored. If so they
call the C library, otherwise every access goes through `sei_write`. An instrumented function such
as `memmove_bsd` asks at every access. Whichever way the accesses go, memory changes as on a
plain machine; those that go through `sei_write` are in the log of the phase. The log takes as
many entries as it has room for, and the write behind the last of them stops the process.
-/

namespace LibSei

open Memory Control

/-! ## What was pushed to a log -/

namespace Abuf

/-- `a'` has the entries `ws` behind those of `a`. -/
structure Extends (a a' : Abuf) (ws : List Write) : Prop where
  pushed : a'.pushed = a.pushed + ws.length
  entry : ∀ i (hi : i < ws.length), (a'.buf (a.pushed + i)).Holds ws[i]

/-- How many of the entries pushed since `a` cover a byte. -/
def timesLogged (a a' : Abuf) (byte : Nat) : Nat :=
  (List.range' a.pushed (a'.pushed - a.pushed)).countP fun i =>
    decide ((a'.buf i).addr ≤ byte ∧ byte < (a'.buf i).addr + (a'.buf i).size)

/-- An entry pushed since `a` covers the byte and holds the value `v` for it. -/
def Logs (a a' : Abuf) (byte : Nat) (v : UInt8) : Prop :=
  ∃ i, a.pushed ≤ i ∧ i < a'.pushed ∧ (a'.buf i).addr ≤ byte ∧
    byte < (a'.buf i).addr + (a'.buf i).size ∧ leByte (a'.buf i).val (byte - (a'.buf i).addr) = v

section Extends

variable {a a' : Abuf} {ws : List Write} {byte : Nat} {v : UInt8}

theorem Extends.refl (a : Abuf) : a.Extends a [] :=
  ⟨rfl, fun _ hi => absurd hi (Nat.not_lt_zero _)⟩

/-- A push appends one entry. -/
theorem Extends.push (h : a.Extends a' ws) {t : UIntTy} {addr value : Nat} {w : Write}
    (haddr : w.addr = addr) (hsize : w.size = t.sizeof) (hval : w.val = value % 256 ^ t.sizeof) :
    a.Extends (a'.push t addr value) (ws ++ [w]) where
  pushed := by
    rw [push_pushed, h.pushed, List.length_append, List.length_singleton, Nat.add_assoc]
  entry i hi := by
    rw [List.length_append, List.length_singleton] at hi
    rcases Nat.lt_or_ge i ws.length with hlt | hge
    · rw [List.getElem_append_left hlt, push_buf_of_ne _ _ _ _ (by rw [h.pushed]; omega)]
      exact h.entry i hlt
    · obtain rfl : i = ws.length := by omega
      rw [List.getElem_concat_length rfl, ← h.pushed, push_buf_self]
      exact fill_holds _ t addr value w haddr hsize hval

theorem Extends.timesLogged (h : a.Extends a' ws) :
    a.timesLogged a' byte = coverCount ws byte := by
  have hmap : (List.range' a.pushed ws.length).map (fun i => ((a'.buf i).addr, (a'.buf i).size)) =
      shapes ws := by
    refine List.ext_getElem (by simp) fun i _ hi => ?_
    rw [length_shapes] at hi
    have hentry := h.entry i hi
    simp [shapes, Write.shape, hentry.addr, hentry.size]
  have hcount := congrArg
    (List.countP fun x : Nat × Nat => decide (x.1 ≤ byte ∧ byte < x.1 + x.2)) hmap
  rw [shapes, List.countP_map, List.countP_map] at hcount
  rw [Abuf.timesLogged, h.pushed, Nat.add_sub_cancel_left]
  exact hcount

theorem Extends.logs (h : a.Extends a' ws) {w : Write} (hw : w ∈ ws) (hcov : w.Covers byte) :
    a.Logs a' byte (w.byteAt byte) := by
  obtain ⟨i, hi, rfl⟩ := List.mem_iff_getElem.mp hw
  obtain ⟨haddr, hsize, hval⟩ := h.entry i hi
  refine ⟨a.pushed + i, Nat.le_add_right _ _, by rw [h.pushed]; omega, ?_⟩
  rw [haddr, hsize, hval]
  exact ⟨hcov.1, hcov.2, rfl⟩

/-- Nothing is in a log that was not extended. -/
theorem not_logs_self (a : Abuf) : ¬ a.Logs a byte v :=
  fun ⟨_, hlo, hhi, _⟩ => absurd hhi (Nat.not_lt.mpr hlo)

end Extends

end Abuf

/-! ## Accesses of a thread -/

namespace Tmi

/-- Memory replaced. -/
def setMem (t : Tmi) (m : Mem) : Tmi := { t with machine := { t.machine with mem := m } }

/-- Accesses that do not pass through the library. -/
def plainAccess : Prog.Runtime UIntTy Stop Tmi where
  read ty addr t := .ok (load t.machine.mem addr ty.sizeof)
  write ty addr value t := .ok (t.setMem (store t.machine.mem addr ty.sizeof value))

/-- Writes through `sei_write`. With `COW_WT` reads are plain ones. -/
def seiAccess (b : Build) : Prog.Runtime UIntTy Stop Tmi where
  read ty addr t := .ok (load t.machine.mem addr ty.sizeof)
  write ty addr value t := do
    let w ← t.world.seiWrite b ty addr value
    return t.setWorld w

/-- The accesses of an instrumented function: `_ITM_R` and `_ITM_W` with the stack pointer
`sp`. -/
def itmAccess (b : Build) (sp : Nat) : Prog.Runtime UIntTy Stop Tmi where
  read ty addr t := .ok (load t.machine.mem addr ty.sizeof)
  write ty addr value t :=
    if t.ignoreAddr sp addr then .ok (t.setMem (store t.machine.mem addr ty.sizeof value))
    else (seiAccess b).write ty addr value t

/-! ## The functions -/

section Functions

variable (env : Env) (b : Build) (t : Tmi) (sp : Nat)

/-- `_ITM_memcpyRtWt`. The byte loop is followed for `fuel` iterations. -/
def itmMemcpyRtWt (dst src size : UInt64) (fuel : Nat) : Exec (Option UInt64 × Tmi) :=
  if t.ignoreAddr sp dst.toNat then (memcpy dst src size).run plainAccess t
  else (memcpyRtWt dst src size fuel).run (seiAccess b) t

/-- `_ITM_memmoveRtWt`. -/
def itmMemmoveRtWt (dst src size : UInt64) (fuel : Nat) : Exec (Option UInt64 × Tmi) :=
  t.itmMemcpyRtWt b sp dst src size fuel

/-- `_ITM_memsetW`. -/
def itmMemsetW (s : UInt64) (c : Int32) (n : UInt64) : Exec (Option UInt64 × Tmi) :=
  if t.ignoreAddr sp s.toNat then (memset s c n).run plainAccess t
  else (memsetW s c n).run (seiAccess b) t

/-- `_ZGTt7memmove`. -/
def zgttMemmove (dst src size : UInt64) : Exec (Option UInt64 × Tmi) :=
  (memmoveBsd dst src size).run (itmAccess b sp) t

/-- `_ITM_calloc`. -/
def itmCalloc (nmemb size : UInt64) : Exec (Nat × Tmi) := do
  let r ← t.world.malloc env b (nmemb * size).toNat
  return (r.1, t.setWorld r.2)

/-- The second statement of `_ZGTt7realloc`: the copy to the new block `p`. The flag says
whether it has returned. -/
def reallocCopy (p : Nat) (ptr size : UInt64) (fuel : Nat) : Exec (Bool × Tmi) :=
  if p ≠ 0 ∧ ptr ≠ 0 then do
    let r ← t.itmMemcpyRtWt b sp (UInt64.ofNat p) ptr size fuel
    return (r.1.isSome, r.2)
  else return (true, t)

/-- The third statement of `_ZGTt7realloc`. -/
def reallocFree (ptr : UInt64) : Exec Tmi :=
  if ptr ≠ 0 then t.itmFree env b ptr.toNat else return t

/-- `_ZGTt7realloc`. -/
def zgttRealloc (ptr size : UInt64) (fuel : Nat) : Exec (Option Nat × Tmi) := do
  let r ← t.itmMalloc env b size.toNat
  let c ← r.2.reallocCopy b sp r.1 ptr size fuel
  if c.1 then do
    let t ← c.2.reallocFree env b ptr
    return (some r.1, t)
  else return (none, c.2)

end Functions

/-- A thread in phase 0 of its first transaction, with an empty stack segment. -/
def firstPhase (mem : Mem) : Tmi := (Tmi.init (Build.twoWay true false) mem).seiBegin 0

theorem room_firstPhase (mem : Mem) : ((firstPhase mem).sei.cow 0).room = 2 ^ 30 :=
  congrArg (· - 0) (Abuf.limit_two_pow (i := 7) (by decide))

/-! ## What they leave -/

/-- The thread made the writes `ws` through `sei_write` in phase `p`. -/
structure Wrote (p : Nat) (t : Tmi) (ws : List Write) (t' : Tmi) : Prop where
  eq : t' = { t with
    sei := { t.sei with cow := Function.update t.sei.cow p (t'.sei.cow p) }
    machine := { t.machine with mem := runWrites ws t.machine.mem } }
  log : (t.sei.cow p).Extends (t'.sei.cow p) (olds ws t.machine.mem)
  grown : Abuf.Grown (t.sei.cow p).maxSize (t'.sei.cow p).maxSize

/-- A write of an instrumented function gets an entry of the log. -/
def logged (t : Tmi) (sp : Nat) (w : Write) : Bool := !t.ignoreAddr sp w.addr

/-- The thread made the writes `ws` as an instrumented function in phase `p`. -/
structure Stored (p sp : Nat) (t : Tmi) (ws : List Write) (t' : Tmi) : Prop where
  phase : t'.sei.p = t.sei.p
  ignore : t'.ignoreAddr sp = t.ignoreAddr sp
  mem : t'.machine.mem = runWrites ws t.machine.mem
  pushed : (t'.sei.cow p).pushed = (t.sei.cow p).pushed + ws.countP (t.logged sp)
  grown : Abuf.Grown (t.sei.cow p).maxSize (t'.sei.cow p).maxSize

section Wrote

variable {b : Build} {t t' : Tmi} {p byte : Nat} {ws : List Write} {α : Type}

theorem Wrote.mem (h : Wrote p t ws t') : t'.machine.mem = runWrites ws t.machine.mem := by
  rw [h.eq]

theorem Wrote.phase (h : Wrote p t ws t') : t'.sei.p = t.sei.p := by
  rw [h.eq]

/-- The capacity of the log is an `int`. -/
theorem Wrote.refl (hint : (t.sei.cow p).maxSize < 2 ^ 31) : Wrote p t [] t where
  eq := by
    rw [Function.update_eq_self]
    rfl
  log := Abuf.Extends.refl _
  grown := .refl hint

/-- How often a byte was logged is how often it was written. -/
theorem Wrote.timesLogged (h : Wrote p t ws t') :
    (t.sei.cow p).timesLogged (t'.sei.cow p) byte = coverCount ws byte := by
  rw [h.log.timesLogged, coverCount_olds]

/-- A written byte is in the log with the value it had before. -/
theorem Wrote.logs (h : Wrote p t ws t') (hcov : ∃ w ∈ ws, w.Covers byte) :
    (t.sei.cow p).Logs (t'.sei.cow p) byte (t.machine.mem byte) := by
  obtain ⟨v, hv, hvcov, hbyte⟩ := exists_olds_byteAt (m := t.machine.mem) hcov
  rw [← hbyte]
  exact h.log.logs hv hvcov

/-- One more write. -/
theorem Wrote.logWrite (h : Wrote p t ws t') (hroom : (t'.sei.cow p).HasRoom) (ty : UIntTy)
    (addr value : Nat) :
    Wrote p t (ws ++ [Write.ofNat addr ty.sizeof value])
      (t'.setWorld (t'.world.logWrite p ty addr value)) := by
  have hself : (t'.setWorld (t'.world.logWrite p ty addr value)).sei.cow p =
      (t'.sei.cow p).push ty addr (load t'.machine.mem addr ty.sizeof) :=
    Function.update_self _ _ _
  refine ⟨?_, ?_, ?_⟩
  · rw [hself, runWrites_append, runWrites_cons, runWrites_nil, Write.apply_ofNat, ← h.mem]
    simp only [setWorld, World.logWrite]
    rw [h.eq]
    simp only [Function.update_idem, Function.update_self]
  · rw [hself, olds_append_singleton]
    refine h.log.push rfl rfl ?_
    rw [Nat.mod_eq_of_lt (load_lt _ _ _), h.mem]
    rfl
  · rw [hself]
    exact h.grown.push hroom

theorem seiAccess_write (hp : t.sei.p = p) (hlt : p < b.redundancy) (ty : UIntTy)
    (addr value : Nat) :
    (seiAccess b).write ty addr value t =
      if (t.sei.cow p).HasRoom then .ok (t.setWorld (t.world.logWrite p ty addr value))
      else .error (.fail "no space left" []) := by
  show (t.world.seiWrite b ty addr value >>= fun w => pure (t.setWorld w)) = _
  rw [World.seiWrite_eq hp hlt]
  show (if (t.sei.cow p).HasRoom then _ else _) >>= _ = _
  split <;> rfl

section Room

variable (hp : t.sei.p = p) (hlt : p < b.redundancy) (hint : (t.sei.cow p).maxSize < 2 ^ 31)

include hp hlt hint

/-- On a thread in phase `p`, accesses through `sei_write` are those of plain memory, as long as
the log has room. -/
theorem simulates_seiAccess :
    Prog.Simulates (seiAccess b) t.machine.mem (fun _ => true) (t.sei.cow p).room
      (.fail "no space left" []) (fun ws t' => Wrote p t ws t') := by
  have hroom : ∀ ws t' v, Wrote p t ws t' →
      ((t'.sei.cow p).HasRoom ↔ (ws ++ [v]).countP (fun _ => true) ≤ (t.sei.cow p).room) := by
    intro ws t' v h
    rw [h.grown.hasRoom_iff_lt_room hint h.log.pushed, length_olds, List.countP_true,
      List.length_append, List.length_singleton]
    omega
  constructor
  · exact fun ws t' ty addr h => congrArg (fun m => Except.ok (load m addr ty.sizeof)) h.mem
  · intro ws t' ty addr value h hfits
    have hroom := (hroom ws t' _ h).mpr hfits
    rw [seiAccess_write (h.phase.trans hp) hlt, if_pos hroom]
    exact ⟨_, rfl, h.logWrite hroom ty addr value⟩
  · intro ws t' ty addr value h _ hfull
    rw [seiAccess_write (h.phase.trans hp) hlt, if_neg]
    rw [hroom ws t' _ h]
    exact Nat.not_le.mpr hfull

/-- A program whose writes go through `sei_write`. -/
theorem run_seiAccess (prog : Prog UIntTy α) :
    if (prog.writes t.machine.mem).length ≤ (t.sei.cow p).room then
      ∃ t', prog.run (seiAccess b) t = .ok (prog.eval t.machine.mem, t') ∧
        Wrote p t (prog.writes t.machine.mem) t'
    else prog.run (seiAccess b) t = .error (.fail "no space left" []) := by
  have hrun := (simulates_seiAccess hp hlt hint).run_start prog (Wrote.refl hint)
  rwa [List.countP_true] at hrun

/-- As `run_seiAccess`, for a function whose result is not asked for. -/
theorem run_seiAccess_state (prog : Prog UIntTy α) :
    if (prog.writes t.machine.mem).length ≤ (t.sei.cow p).room then
      ∃ t', (prog.run (seiAccess b) t >>= fun r => pure r.2) = .ok t' ∧
        Wrote p t (prog.writes t.machine.mem) t'
    else (prog.run (seiAccess b) t >>= fun r => pure r.2) = .error (.fail "no space left" []) := by
  have hrun := run_seiAccess hp hlt hint prog
  split at hrun
  · next hfits =>
    obtain ⟨t', hrun, hwrote⟩ := hrun
    rw [if_pos hfits, hrun]
    exact ⟨t', rfl, hwrote⟩
  · next hfull =>
    rw [if_neg hfull, hrun]
    rfl

end Room

/-! ## Instrumented functions -/

section Instrumented

variable {sp addr : Nat}

theorem Stored.logged_eq (h : Stored p sp t ws t') (size value : Nat) :
    t.logged sp (Write.ofNat addr size value) = !t'.ignoreAddr sp addr := by
  rw [h.ignore]
  rfl

/-- One more write that is ignored. -/
theorem Stored.ignored (h : Stored p sp t ws t') (hig : t'.ignoreAddr sp addr = true)
    (ty : UIntTy) (value : Nat) :
    Stored p sp t (ws ++ [Write.ofNat addr ty.sizeof value])
      (t'.setMem (store t'.machine.mem addr ty.sizeof value)) where
  phase := h.phase
  ignore := h.ignore
  mem := by
    rw [runWrites_append, runWrites_cons, runWrites_nil, Write.apply_ofNat, ← h.mem]
    rfl
  pushed := by
    rw [List.countP_append, List.countP_singleton, h.logged_eq, hig]
    exact h.pushed
  grown := h.grown

/-- One more write that is not ignored. -/
theorem Stored.logWrite (h : Stored p sp t ws t') (hig : t'.ignoreAddr sp addr = false)
    (hroom : (t'.sei.cow p).HasRoom) (ty : UIntTy) (value : Nat) :
    Stored p sp t (ws ++ [Write.ofNat addr ty.sizeof value])
      (t'.setWorld (t'.world.logWrite p ty addr value)) := by
  have hself : (t'.setWorld (t'.world.logWrite p ty addr value)).sei.cow p =
      (t'.sei.cow p).push ty addr (load t'.machine.mem addr ty.sizeof) :=
    Function.update_self _ _ _
  refine ⟨h.phase, h.ignore, ?_, ?_, ?_⟩
  · rw [runWrites_append, runWrites_cons, runWrites_nil, Write.apply_ofNat, ← h.mem]
    rfl
  · rw [hself, Abuf.push_pushed, h.pushed, List.countP_append, List.countP_singleton, h.logged_eq, hig]
    rfl
  · rw [hself]
    exact h.grown.push hroom

/-- An instrumented function. Whichever of its accesses are ignored, memory changes as on a
plain machine. -/
theorem run_itmAccess (hp : t.sei.p = p) (hlt : p < b.redundancy)
    (hint : (t.sei.cow p).maxSize < 2 ^ 31) (sp : Nat) (prog : Prog UIntTy α) :
    if (prog.writes t.machine.mem).countP (t.logged sp) ≤ (t.sei.cow p).room then
      ∃ t', prog.run (itmAccess b sp) t = .ok (prog.eval t.machine.mem, t') ∧
        Stored p sp t (prog.writes t.machine.mem) t'
    else prog.run (itmAccess b sp) t = .error (.fail "no space left" []) := by
  have hsim : Prog.Simulates (itmAccess b sp) t.machine.mem (t.logged sp) (t.sei.cow p).room
      (.fail "no space left" []) (fun ws t' => Stored p sp t ws t') := by
    constructor
    · exact fun ws t' ty addr h => congrArg (fun m => Except.ok (load m addr ty.sizeof)) h.mem
    · intro ws t' ty addr value h hfits
      cases hig : t'.ignoreAddr sp addr with
      | true => exact ⟨_, if_pos hig, h.ignored hig ty value⟩
      | false =>
        rw [List.countP_append, List.countP_singleton, h.logged_eq, hig] at hfits
        have hroom := (h.grown.hasRoom_iff_lt_room hint h.pushed).mpr hfits
        refine ⟨_, (if_neg (by rw [hig]; decide)).trans ?_, h.logWrite hig hroom ty value⟩
        rw [seiAccess_write (h.phase.trans hp) hlt, if_pos hroom]
    · intro ws t' ty addr value h hws hfull
      rw [List.countP_append, List.countP_singleton, h.logged_eq] at hfull
      cases hig : t'.ignoreAddr sp addr with
      | true =>
        rw [hig] at hfull
        exact absurd hws (Nat.not_le.mpr hfull)
      | false =>
        rw [hig] at hfull
        refine (if_neg (by rw [hig]; decide)).trans ?_
        rw [seiAccess_write (h.phase.trans hp) hlt, if_neg]
        rw [h.grown.hasRoom_iff_lt_room hint h.pushed]
        exact Nat.not_lt.mpr (Nat.le_of_lt_succ hfull)
  exact hsim.run_start prog ⟨rfl, rfl, rfl, rfl, .refl hint⟩

end Instrumented

theorem simulates_plainAccess (t : Tmi) :
    Prog.Simulates plainAccess t.machine.mem (fun _ => false) 0 (.fail "" [])
      (fun ws t' => t' = t.setMem (runWrites ws t.machine.mem)) where
  read ws t' ty addr h := by
    subst h
    rfl
  write ws t' ty addr value h _ := by
    subst h
    refine ⟨_, rfl, ?_⟩
    rw [runWrites_append, runWrites_cons, runWrites_nil, Write.apply_ofNat]
    rfl
  full ws t' ty addr value _ _ h := absurd h (by simp)

/-- A program whose accesses do not pass through the library. -/
theorem run_plainAccess (t : Tmi) (prog : Prog UIntTy α) :
    prog.run plainAccess t = .ok (prog.eval t.machine.mem,
      t.setMem (runWrites (prog.writes t.machine.mem) t.machine.mem)) := by
  have hrun := (simulates_plainAccess t).run_start prog (s := t) rfl
  rw [if_pos (by simp)] at hrun
  obtain ⟨_, hrun, rfl⟩ := hrun
  exact hrun

end Wrote

end Tmi

/-! ## Calls that write -/

/-- A call of a write function. A copy is followed for `fuel` iterations of its loop. -/
inductive WriteCall where
  | write (ty : UIntTy) (addr value : Nat)
  | memcpy (dst src size : UInt64) (fuel : Nat)
  | memset (s : UInt64) (c : Int32) (n : UInt64)

namespace WriteCall

/-- The first byte of the destination. -/
def dst : WriteCall → Nat
  | write _ addr _ => addr
  | memcpy dst _ _ _ => dst.toNat
  | memset s _ _ => s.toNat

/-- The length of the destination. -/
def size : WriteCall → Nat
  | write ty _ _ => ty.sizeof
  | memcpy _ _ size _ => size.toNat
  | memset _ _ n => n.toNat

/-- `_ITM_WU1` to `_ITM_WU8`, `_ITM_memcpyRtWt` or `_ITM_memsetW`. -/
def run (b : Build) (sp : Nat) (t : Tmi) : WriteCall → Exec Tmi
  | write ty addr value => (Tmi.itmAccess b sp).write ty addr value t
  | memcpy dst src size fuel => do
      let r ← t.itmMemcpyRtWt b sp dst src size fuel
      return r.2
  | memset s c n => do
      let r ← t.itmMemsetW b sp s c n
      return r.2

/-- The stores a call makes. -/
def stores (sp : Nat) (t : Tmi) : WriteCall → List Write
  | write ty addr value => [Write.ofNat addr ty.sizeof value]
  | memcpy dst src size fuel =>
      if t.ignoreAddr sp dst.toNat then (LibSei.memcpy dst src size).writes t.machine.mem
      else (memcpyRtWt dst src size fuel).writes t.machine.mem
  | memset s c n =>
      if t.ignoreAddr sp s.toNat then (LibSei.memset s c n).writes t.machine.mem
      else (memsetW s c n).writes t.machine.mem

section Stores

variable {b : Build} {t : Tmi} {sp p : Nat}

/-- A call that is not ignored makes its stores through `sei_write`, if there is room for them. -/
theorem run_of_tracked (hp : t.sei.p = p) (hlt : p < b.redundancy)
    (hint : (t.sei.cow p).maxSize < 2 ^ 31) (c : WriteCall) (hnot : t.ignoreAddr sp c.dst = false) :
    if (c.stores sp t).length ≤ (t.sei.cow p).room then
      ∃ t', c.run b sp t = .ok t' ∧ t.Wrote p (c.stores sp t) t'
    else c.run b sp t = .error (.fail "no space left" []) := by
  cases c with
  | write ty addr value =>
    have hnot : t.ignoreAddr sp addr = false := hnot
    have hput : (WriteCall.write ty addr value).run b sp t =
        (Prog.put ty addr value).run (Tmi.seiAccess b) t >>= fun r => pure r.2 := by
      rw [run, Tmi.itmAccess]
      simp only [hnot, Bool.false_eq_true, if_false, Prog.put, Prog.run]
      cases (Tmi.seiAccess b).write ty addr value t <;> rfl
    rw [hput]
    exact Tmi.run_seiAccess_state hp hlt hint (Prog.put ty addr value)
  | memcpy dst src size fuel =>
    have hnot : t.ignoreAddr sp dst.toNat = false := hnot
    simp only [stores, run, Tmi.itmMemcpyRtWt, hnot, Bool.false_eq_true, if_false]
    exact Tmi.run_seiAccess_state hp hlt hint (memcpyRtWt dst src size fuel)
  | memset s c n =>
    have hnot : t.ignoreAddr sp s.toNat = false := hnot
    simp only [stores, run, Tmi.itmMemsetW, hnot, Bool.false_eq_true, if_false]
    exact Tmi.run_seiAccess_state hp hlt hint (memsetW s c n)

/-- An ignored call stores to the whole destination, and to memory only. -/
theorem run_of_ignored (c : WriteCall) (hig : t.ignoreAddr sp c.dst = true) (byte : Nat) :
    c.run b sp t = .ok (t.setMem (runWrites (c.stores sp t) t.machine.mem)) ∧
      ((∃ w ∈ c.stores sp t, w.Covers byte) ↔ c.dst ≤ byte ∧ byte < c.dst + c.size) := by
  cases c with
  | write ty addr value =>
    have hig : t.ignoreAddr sp addr = true := hig
    constructor
    · rw [stores, runWrites_cons, runWrites_nil, Write.apply_ofNat]
      exact if_pos hig
    · simp [stores, dst, size, Write.Covers, Write.ofNat]
  | memcpy dst src size fuel =>
    have hig : t.ignoreAddr sp dst.toNat = true := hig
    obtain ⟨ws, hruns, _, hcons, _⟩ := (fillsUp_memcpy dst src size t.machine.mem).spec
    rw [run, Tmi.itmMemcpyRtWt, stores, if_pos hig, if_pos hig, Tmi.run_plainAccess, hruns.writes]
    exact ⟨rfl, hcons.covers_iff⟩
  | memset s c n =>
    have hig : t.ignoreAddr sp s.toNat = true := hig
    obtain ⟨ws, hruns, _, hcons, _⟩ := (fillsUp_memset s c n t.machine.mem).spec
    rw [run, Tmi.itmMemsetW, stores, if_pos hig, if_pos hig, Tmi.run_plainAccess, hruns.writes]
    exact ⟨rfl, hcons.covers_iff⟩

end Stores

end WriteCall

end LibSei
