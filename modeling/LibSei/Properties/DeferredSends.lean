-- SUMMARY: What deferred sends transmit: the bytes their buffers hold at the flush, against those they held when the handler sent them.
import LibSei.ModeCow.PutAside
import LibSei.Properties.Syscalls

/-!
# What deferred sends transmit

A send is put aside with the address and the size of its buffer. The bytes are read when
the waitress makes the call, after the last phase. The results here follow a handler of
logged writes and sends through its two phases and say when the bytes transmitted at the
flush are those the handler meant to send.
-/

namespace LibSei

open Memory Control

/-! ## Buffers -/

namespace SysCall

/-- The bytes a send reads from its buffer. -/
def payload (m : Mem) : SysCall → List UInt8
  | send _ buffer size _ => Machine.bytes m buffer size
  | sendto _ buffer size _ _ _ => Machine.bytes m buffer size
  | _ => []

/-- The byte lies in the buffer of a send. -/
def Reads (x : Nat) : SysCall → Prop
  | send _ buffer size _ => buffer ≤ x ∧ x < buffer + size
  | sendto _ buffer size _ _ _ => buffer ≤ x ∧ x < buffer + size
  | _ => False

end SysCall

section Payload

variable {c : SysCall} {m m' : Mem} {ws : List Write}

theorem bytes_eq_iff {ptr size : Nat} : Machine.bytes m ptr size = Machine.bytes m' ptr size ↔
    ∀ x, ptr ≤ x ∧ x < ptr + size → m x = m' x := by
  rw [Machine.bytes, Machine.bytes, List.map_inj_left]
  simp only [List.mem_range]
  constructor
  · rintro h x ⟨hle, hlt⟩
    have hbyte := h (x - ptr) (by omega)
    rwa [Nat.add_sub_cancel' hle] at hbyte
  · intro h i hi
    exact h (ptr + i) (by omega)

theorem SysCall.payload_eq_iff : c.payload m = c.payload m' ↔ ∀ x, c.Reads x → m x = m' x := by
  cases c with
  | send sockfd buffer size flags => exact bytes_eq_iff
  | sendto sockfd buffer size flags dest addrlen => exact bytes_eq_iff
  | _ => exact ⟨fun _ _ h => False.elim h, fun _ => rfl⟩

/-- Writes leave the bytes of a buffer alone exactly when the last of them to each byte puts
there what was there. -/
theorem payload_runWrites_iff : c.payload (runWrites ws m) = c.payload m ↔
    ∀ x, c.Reads x → ∀ i (hi : i < ws.length), LastWriter ws x i → ws[i].byteAt x = m x := by
  rw [SysCall.payload_eq_iff]
  refine forall₂_congr fun x _ => ?_
  rcases exists_lastWriter ws x with hnone | ⟨i, hlast⟩
  · rw [runWrites_of_not_covers hnone]
    refine ⟨fun _ i hi hlast => ?_, fun _ => rfl⟩
    exact absurd hlast.2.1 (hnone _ (List.getElem_mem hi))
  · rw [hlast.runWrites hlast.1]
    refine ⟨fun h j hj hjlast => ?_, fun h => h i hlast.1 hlast⟩
    obtain rfl := hlast.unique hjlast
    exact h

end Payload

/-! ## Handlers of writes and sends -/

/-- An operation of a handler that makes logged writes and sends. Writes to the stack of the
transaction, between the stack pointer and `rbp`, are not logged. -/
def Op.WritesOrSends (rbp : Nat) : Op → Prop
  | .write sp _ addr _ => ¬ (sp ≤ addr ∧ addr < rbp)
  | .sys (.send _ _ _ _) _ => True
  | .sys (.sendto _ _ _ _ _ _) _ => True
  | _ => False

/-- What such an operation is to the library in the two phases. -/
def Op.toCall? : Op → Option Call
  | .write _ t addr value => some (.write t addr value)
  | .sys c _ => some (.defer c.item.1 c.item.2)
  | _ => none

/-- The wrapped call, if the operation is one. -/
def Op.sysCall? : Op → Option SysCall
  | .sys c _ => some c
  | _ => none

/-- The writes of a handler, in order. -/
def opWrites (os : List Op) : List Write := writesOf (os.filterMap Op.toCall?)

/-- What the handler transmits without the library: each call, with the bytes its buffer holds
at that moment. -/
def directSends : List Op → Mem → List (SysCall × List UInt8)
  | [], _ => []
  | .write _ t addr value :: os, m => directSends os (store m addr t.sizeof value)
  | .sys c _ :: os, m => (c, c.payload m) :: directSends os m
  | _ :: os, m => directSends os m

/-- What the calls of a flush transmit from memory `m`. -/
def transmitted (es : List Effect) (m : Mem) : List (SysCall × List UInt8) :=
  es.filterMap fun e => e.sysCall?.map fun c => (c, c.payload m)

/-- For every send of the handler and every byte of its buffer: the last later write to the
byte, if there is one, puts there what the byte held when the send was made. -/
def BuffersKept (os : List Op) (m : Mem) : Prop :=
  ∀ before c real after, os = before ++ .sys c real :: after → ∀ x, c.Reads x →
    ∀ i (hi : i < (opWrites after).length), LastWriter (opWrites after) x i →
      (opWrites after)[i].byteAt x = runWrites (opWrites before) m x

section Kept

variable {os : List Op} {o : Op} {m : Mem}

/-- An operation that is no wrapped call only moves the memory on. -/
theorem buffersKept_cons (ho : o.sysCall? = none) :
    BuffersKept (o :: os) m ↔ BuffersKept os (runWrites (opWrites [o]) m) := by
  have hwrites : ∀ before, runWrites (opWrites (o :: before)) m =
      runWrites (opWrites before) (runWrites (opWrites [o]) m) := by
    intro before
    rw [← runWrites_append, opWrites, opWrites, opWrites, ← writesOf_append, ← List.filterMap_append]
    rfl
  constructor
  · intro h before c real after heq
    rw [← hwrites]
    exact h (o :: before) c real after (by rw [heq]; rfl)
  · intro h before c real after heq
    cases before with
    | nil =>
      rw [List.nil_append, List.cons.injEq] at heq
      rw [heq.1] at ho
      cases ho
    | cons o' before =>
      rw [List.cons_append, List.cons.injEq] at heq
      obtain ⟨rfl, heq⟩ := heq
      rw [hwrites]
      exact h before c real after heq

theorem buffersKept_sys {c : SysCall} {real : Int32} : BuffersKept (.sys c real :: os) m ↔
    c.payload (runWrites (opWrites os) m) = c.payload m ∧ BuffersKept os m := by
  rw [payload_runWrites_iff]
  constructor
  · intro h
    exact ⟨h [] c real os rfl, fun before c' real' after heq =>
      h (.sys c real :: before) c' real' after (by rw [heq]; rfl)⟩
  · rintro ⟨hhead, htail⟩ before c' real' after heq
    cases before with
    | nil =>
      rw [List.nil_append, List.cons.injEq, Op.sys.injEq] at heq
      obtain ⟨⟨rfl, rfl⟩, rfl⟩ := heq
      exact hhead
    | cons o' before =>
      rw [List.cons_append, List.cons.injEq] at heq
      obtain ⟨rfl, heq⟩ := heq
      exact htail before c' real' after heq

/-- Reading the buffers after the handler instead of at each call makes no difference exactly
when they are kept. -/
theorem map_payload_eq_directSends_iff :
    ((os.filterMap Op.sysCall?).map fun c => (c, c.payload (runWrites (opWrites os) m))) =
      directSends os m ↔ BuffersKept os m := by
  induction os generalizing m with
  | nil =>
    refine ⟨fun _ before c real after heq => ?_, fun _ => rfl⟩
    cases before <;> cases heq
  | cons o os ih =>
    cases o with
    | sys c real =>
      have hwrites : opWrites (.sys c real :: os) = opWrites os := rfl
      rw [hwrites, buffersKept_sys, ← ih]
      simp [directSends, Op.sysCall?]
    | write sp t addr value =>
      have hstore : runWrites (opWrites [.write sp t addr value]) m =
          store m addr t.sizeof value := apply_toWrite rfl m
      rw [buffersKept_cons rfl, hstore, ← ih, directSends, ← hstore, ← runWrites_append]
      rfl
    | _ =>
      rw [buffersKept_cons rfl]
      exact ih

end Kept

/-! ## The two phases -/

namespace Tmi

/-- Outside the stack of the transaction, between `rbp` and the stack pointer, all writes are
logged. -/
structure Logs (rbp : Nat) (t : Tmi) : Prop where
  high : t.high = rbp
  num : t.ignore.num = 0
  writeDisable : t.ignore.writeDisable = 0

variable {env : Env} {b : Build} {rbp : Nat} {t t' t0 : Tmi} {o : Op} {os : List Op}
  {r : Option Int32} {rs : List (Option Int32)} {rss : List (List (Option Int32))}

theorem Logs.ignoreAddr (h : t.Logs rbp) {sp addr : Nat} (hout : ¬ (sp ≤ addr ∧ addr < rbp)) :
    t.ignoreAddr sp addr = false := by
  have hcovers : t.ignore.covers addr = false := by simp [Ignore.covers, h.num]
  simp only [Tmi.ignoreAddr, h.writeDisable, h.high, hcovers]
  simpa using hout

/-- In phases 0 and 1 a logged write and a send are operations of the library. -/
theorem Logs.op (h : t.Logs rbp) (hp : t.sei.p = 0 ∨ t.sei.p = 1) (ho : o.WritesOrSends rbp)
    (hrun : t.op env b o = .ok (r, t')) :
    ∃ c, o.toCall? = some c ∧ t.world.call env b c = .ok t'.world ∧ t'.Logs rbp := by
  have hsend : ∀ c real, c.key? = none → t.op env b (.sys c real) = .ok (r, t') →
      t.world.call env b (.defer c.item.1 c.item.2) = .ok t'.world ∧ t'.Logs rbp := by
    intro c real hkey hrun
    simp only [Tmi.op, SysCall.run_of_deferred hkey, deferredCall, if_pos hp, bind_eq_ok,
      pure_eq_ok, Except.ok.injEq] at hrun
    obtain ⟨_, ⟨wts, hadd, rfl⟩, hrun⟩ := hrun
    cases hrun
    exact ⟨bind_eq_ok.mpr ⟨wts, hadd, rfl⟩, h.high, h.num, h.writeDisable⟩
  cases o with
  | write sp ty addr value =>
    simp only [Tmi.op, Tmi.itmWrite, h.ignoreAddr ho, Bool.false_eq_true, if_false, bind_eq_ok,
      pure_eq_ok, Except.ok.injEq] at hrun
    obtain ⟨_, ⟨w, hwrite, rfl⟩, hrun⟩ := hrun
    cases hrun
    exact ⟨_, rfl, hwrite, h.high, h.num, h.writeDisable⟩
  | sys c real =>
    cases c with
    | send sockfd buffer size flags => exact ⟨_, rfl, hsend _ real rfl hrun⟩
    | sendto sockfd buffer size flags dest addrlen => exact ⟨_, rfl, hsend _ real rfl hrun⟩
    | _ => exact False.elim ho
  | _ => exact False.elim ho

theorem Logs.ops (h : t.Logs rbp) (hp : t.sei.p = 0 ∨ t.sei.p = 1)
    (hos : ∀ o ∈ os, o.WritesOrSends rbp) (hrun : Tmi.ops env b os t = .ok (rs, t')) :
    World.calls env b (os.filterMap Op.toCall?) t.world = .ok t'.world ∧ t'.Logs rbp := by
  induction os generalizing t rs with
  | nil =>
    cases hrun
    exact ⟨rfl, h⟩
  | cons o os ih =>
    obtain ⟨r, t1, rs', hop, hrest, rfl⟩ := runEach_cons_eq_ok.mp hrun
    obtain ⟨c, hc, hcall, hlogs⟩ := h.op hp (hos o List.mem_cons_self) hop
    have hp1 : t1.sei.p = t.sei.p := (Tmi.op_keeps hop).frame.p
    obtain ⟨hcalls, hlogs'⟩ := ih hlogs (by rwa [hp1]) (fun o ho => hos o (List.mem_cons_of_mem _ ho))
      hrest
    rw [List.filterMap_cons, hc]
    exact ⟨bind_eq_ok.mpr ⟨_, hcall, hcalls⟩, hlogs'⟩

/-- Two phases of a handler that makes logged writes and sends are two phases of the
library. -/
theorem phases_one_inPhase (hidle : t0.world.Idle b 2) (hnum : t0.ignore.num = 0)
    (hdisable : t0.ignore.writeDisable = 0) (hos : ∀ o ∈ os, o.WritesOrSends rbp)
    (hrun : Tmi.phases env b rbp (fun _ => os) t0 1 = .ok (rss, t)) :
    World.inPhase env b (fun _ => os.filterMap Op.toCall?) t0.world 1
      (os.filterMap Op.toCall?) = .ok t.world := by
  simp only [Tmi.phases, bind_eq_ok, pure_eq_ok, Except.ok.injEq, Prod.mk.injEq] at hrun
  obtain ⟨_, ⟨⟨rs1, t1⟩, hfirst, rfl⟩, ⟨go, t2⟩, hcommit, ⟨rs2, t3⟩, hsecond, _, rfl⟩ := hrun
  simp only at hcommit hsecond
  have hbegin : (t0.seiBegin rbp).Logs rbp ∧ (t0.seiBegin rbp).sei.p = 0 ∧
      (t0.seiBegin rbp).sei.redundancyLevel = 2 ∧
      (t0.seiBegin rbp).world = t0.world.beginPhase := by
    have hlevel : t0.sei.redundancyLevel = 2 := hidle.level
    rw [Tmi.seiBegin, World.beginPhase, if_pos hidle.p]
    exact ⟨⟨rfl, hnum, hdisable⟩, rfl, hlevel, rfl⟩
  obtain ⟨hlogs, hp, hlevel, hworld⟩ := hbegin
  obtain ⟨hcalls1, hlogs1⟩ := hlogs.ops (.inl hp) hos hfirst
  have hframe := (Tmi.ops_keeps hfirst).frame
  have hp1 : t1.sei.p = 0 := hframe.p.trans hp
  have hlevel1 : t1.sei.redundancyLevel = 2 := hframe.level.trans hlevel
  have hlt : t1.sei.p < t1.sei.redundancyLevel - 1 := by omega
  have hp2 : t2.sei.p = 1 := by
    rw [(Tmi.seiCommit_of_lt hcommit hlt).2.1, hp1]
    rfl
  -- `__sei_commit` switches, and what the ignore state is reset to logs as well
  rcases Tmi.seiCommit_cases hcommit with ⟨_, _, hswitch⟩ | ⟨_, hge, _⟩ | ⟨_, hge, _⟩
  · simp only [Tmi.switchPhase, bind_eq_ok, pure_eq_ok, Except.ok.injEq] at hswitch
    obtain ⟨w2, hswitch, rfl⟩ := hswitch
    rw [hworld] at hcalls1
    refine bind_eq_ok.mpr ⟨w2, ?_, (Logs.ops ?_ (.inr hp2) hos hsecond).1⟩
    · exact bind_eq_ok.mpr ⟨_, rfl, bind_eq_ok.mpr ⟨_, hcalls1, hswitch⟩⟩
    · exact ⟨hlogs1.high, rfl, rfl⟩
  · omega
  · omega

end Tmi

/-! ## At the flush -/

section Transmitted

variable {env : Env} {b : Build} {rbp : Nat} {t t0 : Tmi} {os : List Op} {cs : List SysCall}
  {es : List Effect} {m : Mem} {rss : List (List (Option Int32))}

theorem transmitted_eq (h : es.map Effect.sysCall? = cs.map some) :
    transmitted es m = cs.map fun c => (c, c.payload m) := by
  have hmap : transmitted es m =
      (es.map Effect.sysCall?).filterMap (Option.map fun c => (c, c.payload m)) := by
    rw [List.filterMap_map]
    rfl
  rw [hmap, h, List.filterMap_map]
  simp

/-- A handler of writes and sends puts its sends aside, and nothing else. -/
theorem filterMap_toCall (hos : ∀ o ∈ os, o.WritesOrSends rbp) :
    (os.filterMap Op.toCall?).filterMap Call.deferred? =
      (putAside (os.filterMap Op.sysCall?)).map SysCall.item ∧
    (os.filterMap Op.toCall?).filterMap Call.freed? = [] ∧
    putAside (os.filterMap Op.sysCall?) = os.filterMap Op.sysCall? := by
  induction os with
  | nil => exact ⟨rfl, rfl, rfl⟩
  | cons o os ih =>
    obtain ⟨hitems, hfrees, hall⟩ := ih fun o ho => hos o (List.mem_cons_of_mem _ ho)
    have ho := hos o List.mem_cons_self
    cases o with
    | write sp ty addr value => exact ⟨hitems, hfrees, hall⟩
    | sys c real =>
      have hkey : c.key? = none := by
        cases c with
        | send sockfd buffer size flags => rfl
        | sendto sockfd buffer size flags dest addrlen => rfl
        | _ => exact False.elim ho
      have haside : putAside (c :: os.filterMap Op.sysCall?) =
          c :: putAside (os.filterMap Op.sysCall?) := by
        simp [putAside, hkey]
      refine ⟨?_, hfrees, ?_⟩
      · show _ :: _ = (putAside (c :: _)).map SysCall.item
        rw [haside, List.map_cons, hitems]
      · show putAside (c :: _) = c :: _
        rw [haside, hall]
    | _ => exact False.elim ho

/-- A handler makes logged writes and sends, the same in two phases of a build for two. What
the flush of a commit transmits is what the handler would transmit without the library
exactly when no later write changes what a buffer held at its send. -/
theorem transmitted_eq_directSends_iff (hbetween : t0.Between b 2) (hb : b.redundancy = 2)
    (hdisable : t0.ignore.writeDisable = 0) (hos : ∀ o ∈ os, o.WritesOrSends rbp)
    (hrun : Tmi.phases env b rbp (fun _ => os) t0 1 = .ok (rss, t)) :
    ∃ wts m es, t.sei.wts.flush b t.machine = .ok (wts, m) ∧ m.trace = t.machine.trace ++ es ∧
      (∀ w, World.Committed env b t.world w → w.machine = m) ∧
      (transmitted es t.machine.mem = directSends os t0.machine.mem ↔
        BuffersKept os t0.machine.mem) := by
  have hidle := hbetween.idle
  have hphase := Tmi.phases_one_inPhase hidle hbetween.ignoreNum hdisable hos hrun
  have hmem : t.machine.mem = runWrites (opWrites os) t0.machine.mem :=
    (hidle.inPhase (by decide) hphase).mem
  obtain ⟨hitems, hfrees, hall⟩ := filterMap_toCall hos
  have hqueued : ∀ p < b.redundancy,
      t.sei.wts.Queued p ((putAside (os.filterMap Op.sysCall?)).map SysCall.item) := by
    rw [hb, ← hitems]
    intro p hp
    have h := hidle.startable.queued (hbetween.wts p (by omega)) (by decide) hphase
    -- both phases make the same operations
    have hsame : World.upTo (fun _ => os.filterMap Op.toCall?) 1 (os.filterMap Op.toCall?) p =
        os.filterMap Op.toCall? := by
      rcases Nat.lt_succ_iff_lt_or_eq.mp hp with hlt | rfl
      · exact World.upTo_of_lt hlt
      · exact World.upTo_self
    rwa [hsame] at h
  have htbin : t.sei.tbin.nitems 0 = 0 := by
    have h : t.sei.tbin.nitems 0 = ((os.filterMap Op.toCall?).filterMap Call.freed?).length :=
      (hidle.startable.trashed (hbetween.tbin 0 (by omega)) (by decide) hphase).nitems
    rw [h, hfrees]
    rfl
  obtain ⟨_, wts, m, es, hflush, htrace, hcalls, _⟩ := Wts.flush_of_queued hqueued t.machine
  rw [hall] at hcalls
  refine ⟨wts, m, es, hflush, htrace, fun w hcommit => ?_, ?_⟩
  · obtain ⟨m', hcalls', hfrees'⟩ := hcommit.effects
    have hsame := hcalls'.symm.trans hflush
    rw [Except.ok.injEq, Prod.mk.injEq] at hsame
    obtain ⟨_, rfl⟩ := hsame
    exact Tbin.flush_of_none hfrees' htbin
  · rw [transmitted_eq hcalls, hmem]
    exact map_payload_eq_directSends_iff

/-- A handler that fills a buffer of one byte, sends it, writes a byte and sends the buffer
again. -/
def sendThenWrite (addr : Nat) : List Op :=
  [.write 0 .uint8 64 1, .sys (.send 5 64 1 0) 1, .write 0 .uint8 addr 2, .sys (.send 5 64 1 0) 1]

theorem writesOrSends_sendThenWrite (addr : Nat) : ∀ o ∈ sendThenWrite addr, o.WritesOrSends 0 := by
  intro o ho
  simp only [sendThenWrite, List.mem_cons, List.not_mem_nil, or_false] at ho
  rcases ho with rfl | rfl | rfl | rfl
  · show ¬ (0 ≤ 64 ∧ 64 < 0)
    omega
  · trivial
  · show ¬ (0 ≤ addr ∧ addr < 0)
    omega
  · trivial

/-- A buffer that is not written again is transmitted as it was sent. -/
theorem transmitted_sendThenWrite :
    ∃ rss t, Tmi.phases Env.plain (Build.twoWay false false) 0 (fun _ => sendThenWrite 65)
        (Tmi.init (Build.twoWay false false) fun _ => 0) 1 = .ok (rss, t) ∧
      ∃ wts m es, t.sei.wts.flush (Build.twoWay false false) t.machine = .ok (wts, m) ∧
        transmitted es t.machine.mem = [(.send 5 64 1 0, [1]), (.send 5 64 1 0, [1])] := by
  obtain ⟨rss, t, hrun⟩ : ∃ rss t, Tmi.phases Env.plain (Build.twoWay false false) 0
      (fun _ => sendThenWrite 65) (Tmi.init (Build.twoWay false false) fun _ => 0) 1 =
        .ok (rss, t) := ⟨_, _, rfl⟩
  obtain ⟨wts, m, es, hflush, _, _, hiff⟩ := transmitted_eq_directSends_iff
    (Tmi.between_init (Build.twoWay false false) fun _ => 0) rfl rfl
    (writesOrSends_sendThenWrite 65) hrun
  have hkept : BuffersKept (sendThenWrite 65) fun _ => 0 := map_payload_eq_directSends_iff.mp rfl
  exact ⟨rss, t, hrun, wts, m, es, hflush, (hiff.mpr hkept).trans rfl⟩

/-- A buffer that is refilled between two sends: both transmit what it was refilled with. -/
theorem transmitted_refilled :
    ∃ rss t, Tmi.phases Env.plain (Build.twoWay false false) 0 (fun _ => sendThenWrite 64)
        (Tmi.init (Build.twoWay false false) fun _ => 0) 1 = .ok (rss, t) ∧
      ∃ wts m es, t.sei.wts.flush (Build.twoWay false false) t.machine = .ok (wts, m) ∧
        m.trace = t.machine.trace ++ es ∧
        transmitted es t.machine.mem = [(.send 5 64 1 0, [2]), (.send 5 64 1 0, [2])] ∧
        directSends (sendThenWrite 64) (fun _ => 0) =
          [(.send 5 64 1 0, [1]), (.send 5 64 1 0, [2])] := by
  refine ⟨_, _, rfl, _, _, [.called wtsSend [5, 64, 1, 0, 1], .called wtsSend [5, 64, 1, 0, 1]],
    rfl, rfl, rfl, rfl⟩

end Transmitted

end LibSei
