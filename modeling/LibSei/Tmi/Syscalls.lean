-- SUMMARY: The wrappers of socket, connect, bind, close, send and sendto: which calls a phase really makes, records or puts aside.
import LibSei.Abuf.Record
import LibSei.Traversal.Wts

/-!
# Wrapped system calls

Calls whose result the handler needs at once are made in phase 0, and their result is
recorded for phase 1. Calls that send something out are put aside in phases 0 and 1 and
made at commit. The wrappers tell the phases apart by a `switch` with these two cases;
in every other phase they make the call.
-/

namespace LibSei

open Memory Control

/-- The argument `dest_addr` of `sendto`: a pointer out of the stack, or a pointer into it
with the two words found there when the call is made. -/
inductive SockAddr where
  | heap (addr : Nat)
  | stack (addr word0 word1 : Nat)
  deriving DecidableEq, Repr

/-- A call of one of the wrapped functions. Arguments are given as the words they are
converted to. -/
inductive SysCall where
  | socket (domain type protocol : Nat)
  | connect (socket addr length : Nat)
  | bind (sockfd addr addrlen : Nat)
  | close (fd : Nat)
  | send (socket buffer size flags : Nat)
  | sendto (socket buffer size flags : Nat) (dest : SockAddr) (addrlen : Nat)
  deriving DecidableEq, Repr

/-! ## Callbacks -/

/-- The call a callback makes with the arguments it is given. -/
def callback (func : Nat) (args : List Nat) : Option SysCall :=
  if func = wtsClose then some (.close (args.getD 0 0))
  else if func = wtsSend then
    some (.send (args.getD 0 0) (args.getD 1 0) (args.getD 2 0) (args.getD 3 0))
  else if func = wtsSendto then
    let dest := if args.getD 7 0 = 0 then .heap (args.getD 4 0)
      else .stack (args.getD 4 0) (args.getD 8 0) (args.getD 9 0)
    some (.sendto (args.getD 0 0) (args.getD 1 0) (args.getD 2 0) (args.getD 3 0) dest
      (args.getD 5 0))
  else none

/-- The system call behind an effect of the library. -/
def Effect.sysCall? : Effect → Option SysCall
  | .freed _ => none
  | .called func args => callback func args

/-! ## Wrappers -/

/-- What the wrappers work on: the waitress, the buffer `abuf_sc` of the thread, and the
underlying functions called so far. -/
structure SysState where
  wts : Wts
  abufSc : Abuf
  calls : List SysCall

/-- The underlying function is called. -/
def SysState.really (s : SysState) (c : SysCall) : SysState := { s with calls := s.calls ++ [c] }

/-- The body of `socket`, `connect` and `bind`: `key` is the address the result is recorded
under, `real` what the underlying function returns if it is called. -/
def recordedCall (b : Build) (p : Int) (key : Nat) (c : SysCall) (real : Int32) (s : SysState) :
    Exec (Int32 × SysState) :=
  if p = 0 then
    return (real, { s.really c with abufSc := s.abufSc.push .uint32 key real.toUInt32.toNat })
  else if p = 1 then do
    let (v, abufSc) ← s.abufSc.popType b .uint32 key
    return ((UInt32.ofNat v).toInt32, { s with abufSc := abufSc })
  else return (real, s.really c)

/-- The body of `close`, `send` and `sendto`: `args` are put aside for the callback `fp`, and
the handler is told that the result is `promised`. -/
def deferredCall (b : Build) (p : Int) (fp : Nat) (args : List Nat) (promised : Int32) (c : SysCall)
    (real : Int32) (s : SysState) : Exec (Int32 × SysState) :=
  if p = 0 ∨ p = 1 then do
    let wts ← s.wts.add b p fp args
    return (promised, { s with wts := wts })
  else return (real, s.really c)

namespace Sys

def socket (b : Build) (p : Int) (domain type protocol : Nat) : Int32 → SysState →
    Exec (Int32 × SysState) :=
  recordedCall b p domain (.socket domain type protocol)

def connect (b : Build) (p : Int) (socket addr length : Nat) : Int32 → SysState →
    Exec (Int32 × SysState) :=
  recordedCall b p socket (.connect socket addr length)

def bind (b : Build) (p : Int) (sockfd addr addrlen : Nat) : Int32 → SysState →
    Exec (Int32 × SysState) :=
  recordedCall b p addr (.bind sockfd addr addrlen)

def close (b : Build) (p : Int) (fd : Nat) : Int32 → SysState → Exec (Int32 × SysState) :=
  deferredCall b p wtsClose [fd, 0] 0 (.close fd)

def send (b : Build) (p : Int) (socket buffer size flags : Nat) : Int32 → SysState →
    Exec (Int32 × SysState) :=
  deferredCall b p wtsSend [socket, buffer, size, flags, size] (Int32.ofNat size)
    (.send socket buffer size flags)

def sendto (b : Build) (p : Int) (socket buffer size flags : Nat) (dest : SockAddr)
    (addrlen : Nat) : Int32 → SysState → Exec (Int32 × SysState) :=
  let args := match dest with
    | .heap addr => [socket, buffer, size, flags, addr, addrlen, size, 0]
    | .stack addr word0 word1 => [socket, buffer, size, flags, addr, addrlen, size, 1, word0, word1]
  deferredCall b p wtsSendto args (Int32.ofNat size) (.sendto socket buffer size flags dest addrlen)

end Sys

/-- A wrapped call in phase `p`. -/
def SysCall.run (b : Build) (p : Int) (c : SysCall) : Int32 → SysState → Exec (Int32 × SysState) :=
  match c with
  | .socket domain type protocol => Sys.socket b p domain type protocol
  | .connect sockfd addr length => Sys.connect b p sockfd addr length
  | .bind sockfd addr addrlen => Sys.bind b p sockfd addr addrlen
  | .close fd => Sys.close b p fd
  | .send sockfd buffer size flags => Sys.send b p sockfd buffer size flags
  | .sendto sockfd buffer size flags dest addrlen =>
      Sys.sendto b p sockfd buffer size flags dest addrlen

/-- The calls of a phase, each with what the underlying function returns if it is called;
the handler is given the results. -/
def SysState.run (b : Build) (p : Int) : List (SysCall × Int32) → SysState →
    Exec (List Int32 × SysState) :=
  runEach fun x => x.1.run b p x.2

/-! ## What a phase does -/

namespace SysCall

/-- The address the result of a call is recorded under, for the calls that are recorded. -/
def key? : SysCall → Option Nat
  | socket domain _ _ => some domain
  | connect sockfd _ _ => some sockfd
  | bind _ addr _ => some addr
  | _ => none

/-- The callback and the arguments a call is put aside with, for the calls that are. -/
def item : SysCall → Nat × List Nat
  | close fd => (wtsClose, [fd, 0])
  | send sockfd buffer size flags => (wtsSend, [sockfd, buffer, size, flags, size])
  | sendto sockfd buffer size flags (.heap addr) addrlen =>
      (wtsSendto, [sockfd, buffer, size, flags, addr, addrlen, size, 0])
  | sendto sockfd buffer size flags (.stack addr word0 word1) addrlen =>
      (wtsSendto, [sockfd, buffer, size, flags, addr, addrlen, size, 1, word0, word1])
  | _ => (0, [])

/-- What the handler is told a call that is put aside has returned. -/
def promised : SysCall → Int32
  | send _ _ size _ => Int32.ofNat size
  | sendto _ _ size _ _ _ => Int32.ofNat size
  | _ => 0

variable {b : Build} {p : Int} {c : SysCall}

theorem run_of_recorded {k : Nat} (h : c.key? = some k) :
    c.run b p = recordedCall b p k c := by
  cases c <;> cases h <;> rfl

theorem run_of_deferred (h : c.key? = none) :
    c.run b p = deferredCall b p c.item.1 c.item.2 c.promised c := by
  cases c with
  | close fd => rfl
  | send sockfd buffer size flags => rfl
  | sendto sockfd buffer size flags dest addrlen => cases dest <;> rfl
  | _ => cases h

/-- The callback of a call that was put aside makes this call. -/
theorem callback_item (h : c.key? = none) : callback c.item.1 c.item.2 = some c := by
  cases c with
  | close fd => rfl
  | send sockfd buffer size flags => rfl
  | sendto sockfd buffer size flags dest addrlen => cases dest <;> rfl
  | _ => cases h

theorem item_wf (h : c.key? = none) : c.item.1 ≠ 0 ∧ c.item.2.length ≤ wtsMaxArg := by
  cases c with
  | close fd => exact ⟨Nat.one_ne_zero, by simp [item, wtsMaxArg]⟩
  | send sockfd buffer size flags => exact ⟨by simp [item, wtsSend], by simp [item, wtsMaxArg]⟩
  | sendto sockfd buffer size flags dest addrlen =>
    cases dest <;> exact ⟨by simp [item, wtsSendto], by simp [item, wtsMaxArg]⟩
  | _ => cases h

end SysCall

/-- The calls made at once. -/
def immediate (cs : List SysCall) : List SysCall := cs.filter fun c => c.key?.isSome

/-- The calls put aside. -/
def putAside (cs : List SysCall) : List SysCall := cs.filter fun c => c.key?.isNone

/-- What the results of phase 0 leave in `abuf_sc`. -/
def resultLog (xs : List (SysCall × Int32)) : List (Nat × Nat) :=
  xs.filterMap fun x => x.1.key?.map fun k => (k, x.2.toUInt32.toNat)

/-- What the handler is given in phase 0. -/
def replies (xs : List (SysCall × Int32)) : List Int32 :=
  xs.map fun x => if x.1.key?.isSome then x.2 else x.1.promised

section Phases

variable {b : Build} {s : SysState} {l : List (Nat × Nat)} {ds : List (Nat × List Nat)}

/-- A recorded result comes back as it was. -/
theorem toInt32_result (r : Int32) :
    (UInt32.ofNat (r.toUInt32.toNat % 256 ^ UIntTy.sizeof .uint32)).toInt32 = r := by
  have hlt : r.toUInt32.toNat < 256 ^ UIntTy.sizeof .uint32 := r.toUInt32.toNat_lt
  rw [Nat.mod_eq_of_lt hlt]
  simp

/-- In phase 0 a call is made and its result recorded, or it is put aside. -/
theorem SysState.run_firstPhase {xs : List (SysCall × Int32)} (hsc : s.abufSc.Results .uint32 l 0)
    (hwts : s.wts.Queued 0 ds) (hroom : ds.length + xs.length + 1 ≤ s.wts.maxItems) :
    ∃ s', s.run b 0 xs = .ok (replies xs, s') ∧
      s'.abufSc.Results .uint32 (l ++ resultLog xs) 0 ∧
      s'.wts.Queued 0 (ds ++ (putAside (xs.map Prod.fst)).map SysCall.item) ∧
      s'.wts.maxItems = s.wts.maxItems ∧ (∀ q es, q ≠ 0 → s.wts.Queued q es → s'.wts.Queued q es) ∧
      s'.calls = s.calls ++ immediate (xs.map Prod.fst) := by
  induction xs generalizing s l ds with
  | nil => exact ⟨s, rfl, by simpa [resultLog] using hsc, by simpa [putAside] using hwts, rfl,
      fun _ _ _ h => h, by simp [immediate]⟩
  | cons x xs ih =>
    obtain ⟨c, real⟩ := x
    rw [List.length_cons] at hroom
    cases hkey : c.key? with
    | some k =>
      obtain ⟨s', hrun, hsc', hwts', hmax, hother, hcalls⟩ :=
        ih (s := { s.really c with abufSc := s.abufSc.push .uint32 k real.toUInt32.toNat })
          (hsc.push k real.toUInt32.toNat) hwts (by show _ ≤ s.wts.maxItems; omega)
      refine ⟨s', ?_, ?_, ?_, hmax, hother, ?_⟩
      · rw [replies, List.map_cons, hkey]
        refine runEach_cons_of ?_ hrun
        simp only [SysCall.run_of_recorded hkey]
        exact if_pos rfl
      · simpa [resultLog, hkey] using hsc'
      · simpa [putAside, hkey] using hwts'
      · simpa [immediate, hkey, SysState.really] using hcalls
    | none =>
      obtain ⟨hfp, hargs⟩ := SysCall.item_wf hkey
      have hzero : 0 < b.redundancy := Nat.lt_of_lt_of_le (by decide) b.two_le
      obtain ⟨wts, hadd, hqueued, hmax, hother⟩ := hwts.add hzero hfp hargs (by omega)
      obtain ⟨s', hrun, hsc', hwts', hmax', hother', hcalls⟩ := ih (s := { s with wts := wts }) hsc
        hqueued (by rw [hmax, List.length_append, List.length_singleton]; omega)
      refine ⟨s', ?_, ?_, ?_, hmax'.trans hmax, fun q es hq h => hother' q es hq (hother q es hq h), ?_⟩
      · rw [replies, List.map_cons, hkey]
        refine runEach_cons_of ?_ hrun
        simp only [SysCall.run_of_deferred hkey]
        exact (if_pos (.inl rfl)).trans (bind_eq_ok.mpr ⟨wts, hadd, rfl⟩)
      · simpa [resultLog, hkey] using hsc'
      · simpa [putAside, hkey] using hwts'
      · simpa [immediate, hkey] using hcalls

/-- Phase 1 makes no call: it is given the results of phase 0 and puts the same calls
aside. -/
theorem SysState.run_secondPhase {xs ys : List (SysCall × Int32)} {k : Nat}
    (hsame : ys.map Prod.fst = xs.map Prod.fst)
    (hsc : s.abufSc.Results .uint32 (l ++ resultLog xs) k) (hk : k = l.length)
    (hwts : s.wts.Queued 1 ds) (hroom : ds.length + xs.length + 1 ≤ s.wts.maxItems) :
    ∃ s', s.run b 1 ys = .ok (replies xs, s') ∧
      s'.wts.Queued 1 (ds ++ (putAside (xs.map Prod.fst)).map SysCall.item) ∧
      s'.wts.maxItems = s.wts.maxItems ∧ (∀ q es, q ≠ 1 → s.wts.Queued q es → s'.wts.Queued q es) ∧
      s'.calls = s.calls := by
  induction xs generalizing s l ds k ys with
  | nil =>
    obtain rfl := List.map_eq_nil_iff.mp hsame
    exact ⟨s, rfl, by simpa [putAside] using hwts, rfl, fun _ _ _ h => h, rfl⟩
  | cons x xs ih =>
    obtain ⟨c, real⟩ := x
    obtain ⟨⟨c', real'⟩, ys, rfl, hc, hys⟩ := List.map_eq_cons_iff.mp hsame
    simp only at hc
    subst hc
    rw [List.length_cons] at hroom
    cases hkey : c'.key? with
    | some key =>
      have hlog : resultLog ((c', real) :: xs) = (key, real.toUInt32.toNat) :: resultLog xs := by
        simp [resultLog, hkey]
      rw [hlog] at hsc
      have hlt : k < (l ++ (key, real.toUInt32.toNat) :: resultLog xs).length := by
        rw [hk]
        simp
      have hentry : (l ++ (key, real.toUInt32.toNat) :: resultLog xs)[k] =
          (key, real.toUInt32.toNat) := by
        subst hk
        simp
      have hpop := hsc.popType (b := b) hlt (show _ = key by rw [hentry])
      rw [hentry] at hpop
      obtain ⟨s', hrun, hwts', hmax, hother, hcalls⟩ :=
        ih (s := { s with abufSc := { s.abufSc with poped := k + 1 } })
          (l := l ++ [(key, real.toUInt32.toNat)]) hys
          (by rw [List.append_assoc]; exact hsc.poped_succ) (by simp [hk]) hwts
          (by show _ ≤ s.wts.maxItems; omega)
      refine ⟨s', ?_, ?_, hmax, hother, hcalls⟩
      · rw [replies, List.map_cons, hkey]
        refine runEach_cons_of ?_ hrun
        simp only [SysCall.run_of_recorded hkey]
        rw [recordedCall, if_neg (by decide), if_pos rfl, hpop, ok_bind]
        simp only [toInt32_result]
        rfl
      · simpa [putAside, hkey] using hwts'
    | none =>
      have hlog : resultLog ((c', real) :: xs) = resultLog xs := by simp [resultLog, hkey]
      rw [hlog] at hsc
      obtain ⟨hfp, hargs⟩ := SysCall.item_wf hkey
      have hone : 1 < b.redundancy := b.two_le
      obtain ⟨wts, hadd, hqueued, hmax, hother⟩ := hwts.add hone hfp hargs (by omega)
      obtain ⟨s', hrun, hwts', hmax', hother', hcalls⟩ := ih (s := { s with wts := wts }) hys hsc hk
        hqueued (by rw [hmax, List.length_append, List.length_singleton]; omega)
      refine ⟨s', ?_, ?_, hmax'.trans hmax, fun q es hq h => hother' q es hq (hother q es hq h), hcalls⟩
      · rw [replies, List.map_cons, hkey]
        refine runEach_cons_of ?_ hrun
        simp only [SysCall.run_of_deferred hkey]
        exact (if_pos (.inr rfl)).trans (bind_eq_ok.mpr ⟨wts, hadd, rfl⟩)
      · simpa [putAside, hkey] using hwts'

/-- From phase 2 on every call is made. -/
theorem SysState.run_laterPhase {ys : List (SysCall × Int32)} {p : Int} (hp : 2 ≤ p) :
    s.run b p ys =
      .ok (ys.map Prod.snd, { s with calls := s.calls ++ ys.map Prod.fst }) := by
  induction ys generalizing s with
  | nil => simp [SysState.run]
  | cons y ys ih =>
    obtain ⟨c, real⟩ := y
    have hcall : c.run b p real s = .ok (real, s.really c) := by
      cases hkey : c.key? with
      | some k =>
        rw [SysCall.run_of_recorded hkey, recordedCall, if_neg (by omega), if_neg (by omega)]
        rfl
      | none =>
        rw [SysCall.run_of_deferred hkey, deferredCall, if_neg (by omega)]
        rfl
    rw [List.map_cons, List.map_cons, List.append_cons]
    exact runEach_cons_of hcall (ih (s := s.really c))

end Phases

end LibSei
