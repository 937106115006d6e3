-- SUMMARY: Message checksums: the CRC functions, the input buffer `ibuf` and the output queues `obuf`.
import LibSei.Machine.Env
import LibSei.Memory.RingBuffer

/-!
# Input and output messages

The input message is checked against its CRC on entry and again at commit. Output
messages are not kept: each phase accumulates the size and the CRC of every message
it emits in a ring of its own, and the CRC is handed out later.
-/

namespace LibSei

open Memory Control

/-! ## CRC -/

namespace Crc

/-- `crc_init`. -/
def init : UInt32 := 0xFFFFFFFF

/-- `crc_append`. -/
def append (env : Env) (crc : UInt32) (mem : Mem) (block len : Nat) : UInt32 :=
  env.crc32c crc (Machine.bytes mem block len)

/-- `crc_append_len`: the length is not part of the checksum. -/
def appendLen (crc : UInt32) (_len : Nat) : UInt32 := crc

/-- `crc_close`. -/
def close (crc : UInt32) : UInt32 := ~~~crc

/-- `crc_compute`. -/
def compute (env : Env) (mem : Mem) (block len : Nat) : UInt32 :=
  close (appendLen (append env init mem block len) len)

end Crc

/-! ## ibuf -/

/-- `ibuf_mode_t`. -/
inductive IbufMode where
  | readOnly | readWrite
  deriving DecidableEq, Repr

/-- `struct ibuf`. A null `ptr` is 0. -/
@[ext] structure Ibuf where
  ptr : Nat
  size : Nat
  crc : UInt32
  tcrc : UInt32
  mode : IbufMode
  checked : Nat
  deriving DecidableEq

namespace Ibuf

/-- `ibuf_switch`. -/
def switch (env : Env) (i : Ibuf) (mem : Mem) : Ibuf :=
  match i.mode with
  | .readOnly => i
  | .readWrite => { i with tcrc := Crc.compute env mem i.ptr i.size }

/-- `ibuf_correct`. -/
def correct (env : Env) (b : Build) (i : Ibuf) (mem : Mem) : Exec Bool :=
  match i.mode with
  | .readOnly =>
      if i.ptr = 0 then do
        b.assert (i.size = 0) "ibuf->size == 0"
        b.assert (i.crc = Crc.init) "ibuf->crc == crc_init()"
        b.assert (i.mode = .readOnly) "ibuf->mode == READ_ONLY"
        return true
      else return Crc.compute env mem i.ptr i.size = i.crc
  | .readWrite => return Crc.compute env mem i.ptr i.size = i.tcrc

/-- `ibuf_reset`. -/
def reset (i : Ibuf) : Ibuf := { i with checked := 0 }

end Ibuf

/-! ## obuf -/

/-- `MAX_MSGS`. -/
def maxMsgs : Nat := 100

/-- `obuf_entry_t`. -/
@[ext] structure ObufEntry where
  size : Nat
  crc : UInt32
  done : Bool
  deriving DecidableEq, Repr

/-- An entry no message has been written to. -/
def ObufEntry.fresh : ObufEntry := ⟨0, Crc.init, false⟩

/-- `obuf_queue_t`. The counters are `int`s and are never reduced: the slot of a
message is its counter modulo the length of the ring. -/
@[ext] structure ObufQueue where
  entries : Nat → ObufEntry
  head : Int32
  tail : Int32

namespace ObufQueue

/-- A queue as `obuf_init` and `obuf_reset` leave it. -/
def fresh : ObufQueue := ⟨fun _ => ObufEntry.fresh, 0, 0⟩

/-- The index `counter % MAX_MSGS`, which C rounds towards zero. -/
def index (counter : Int32) : Exec Nat := do
  inBounds (0 ≤ (counter % 100).toInt) "queue->entries"
  return (counter % 100).toInt.toNat

/-- `obuf_push` on the queue of the current phase. -/
def push (env : Env) (b : Build) (q : ObufQueue) (mem : Mem) (ptr size : Nat) :
    Exec ObufQueue := do
  let i ← index q.tail
  let e := q.entries i
  b.assert (e.done = false) "!e->done"
  let e' := { e with
    crc := Crc.append env e.crc mem ptr size
    size := (e.size + size) % 2 ^ 64 }
  return { q with entries := Function.update q.entries i e' }

/-- `obuf_done` on the queue of the current phase. -/
def done (b : Build) (q : ObufQueue) : Exec ObufQueue := do
  let i ← index q.tail
  let e := q.entries i
  b.assert (e.done = false) "!e->done"
  b.assert (e.size > 0) "message with no content"
  let tail := q.tail + 1
  b.assert ((tail - q.head).toInt ≤ maxMsgs) "queue->tail - queue->head <= MAX_MSGS"
  let e' := { e with crc := Crc.close (Crc.appendLen e.crc e.size), done := true }
  return { q with entries := Function.update q.entries i e', tail := tail }

end ObufQueue

/-- `struct obuf`. -/
@[ext] structure Obuf where
  queue : Nat → ObufQueue
  p : Nat
  redundancyLevel : Nat

namespace Obuf

/-- `obuf_init`. The argument of the C function is not used. -/
def init (b : Build) : Obuf := ⟨fun _ => ObufQueue.fresh, 0, b.redundancy⟩

/-- `obuf_close`. -/
def close (o : Obuf) : Obuf := { o with p := (o.p + 1) % o.redundancyLevel }

/-- `obuf_push`. -/
def push (env : Env) (b : Build) (o : Obuf) (mem : Mem) (ptr size : Nat) : Exec Obuf := do
  let q ← (o.queue o.p).push env b mem ptr size
  return { o with queue := Function.update o.queue o.p q }

/-- `obuf_done`. -/
def done (b : Build) (o : Obuf) : Exec Obuf := do
  let q ← (o.queue o.p).done b
  return { o with queue := Function.update o.queue o.p q }

/-- Taking the head entry of a queue: its index and the queue with the entry reset. -/
def popQueue (q : ObufQueue) : Exec ObufQueue := do
  let i ← ObufQueue.index q.head
  return { q with head := q.head + 1, entries := Function.update q.entries i ObufEntry.fresh }

/-- The entry at the head of a queue. -/
def headEntry (q : ObufQueue) : Exec ObufEntry := do
  let i ← ObufQueue.index q.head
  return q.entries i

/-- The comparisons of the popped entries, all of them assertions. -/
def popCompare (b : Build) (o : Obuf) (e0 : ObufEntry) (p : Nat) : Exec Unit := do
  let e ← headEntry (o.queue p)
  b.assert (e0.size = e.size) "entries[0]->size == entries[p]->size"
  b.assert (e0.done = e.done) "entries[0]->done == entries[p]->done"
  b.assert (e0.crc = e.crc) "entries[0]->crc == entries[p]->crc"

/-- `obuf_pop`. -/
def pop (b : Build) (o : Obuf) : Exec (UInt32 × Obuf) := do
  checkLoop (fun p => b.assert ((o.queue p).head < (o.queue p).tail)
    "obuf->queue[p].head < obuf->queue[p].tail") o.redundancyLevel 0
  let e0 ← headEntry (o.queue 0)
  checkLoop (popCompare b o e0) (o.redundancyLevel - 1) 1
  let queue ← forLoop (fun p queue => do
    let q ← popQueue (o.queue p)
    return Function.update queue p q) o.redundancyLevel 0 o.queue
  return (e0.crc, { o with queue := queue })

/-- `obuf_size`. -/
def size (b : Build) (o : Obuf) : Exec Int32 := do
  checkLoop (fun p => do
    b.assert ((o.queue 0).head = (o.queue p).head) "obuf->queue[0].head == obuf->queue[p].head"
    b.assert ((o.queue 0).tail = (o.queue p).tail) "obuf->queue[0].tail == obuf->queue[p].tail")
    (o.redundancyLevel - 1) 1
  return (o.queue 0).tail - (o.queue 0).head

/-- `obuf_reset`. -/
def reset (o : Obuf) : Obuf :=
  { o with
    queue := fun p => if p < o.redundancyLevel then ObufQueue.fresh else o.queue p
    p := 0 }

end Obuf

/-! ## Taking messages -/

namespace ObufQueue

/-- The entry found where message `k` after the head is looked for, when all messages before
it have been taken: their entries have been cleared on the way. -/
def message (q : ObufQueue) (k : Nat) : ObufEntry :=
  if k < maxMsgs then q.entries ((q.head.toInt.toNat + k) % maxMsgs) else ObufEntry.fresh

/-- `q` is the queue `q0` after `k` messages have been taken. -/
structure Taken (q0 : ObufQueue) (k : Nat) (q : ObufQueue) : Prop where
  nonneg : 0 ≤ q0.head.toInt
  head : q.head.toInt = q0.head.toInt + k
  tail : q.tail = q0.tail
  entries : q.entries =
    RingBuffer.taken maxMsgs q0.head.toInt.toNat k ObufEntry.fresh q0.entries

variable {q0 q : ObufQueue} {k : Nat}

theorem Taken.index (h : Taken q0 k q) :
    ObufQueue.index q.head = .ok ((q0.head.toInt.toNat + k) % maxMsgs) := by
  have hmod : (q.head % 100).toInt = ((q0.head.toInt.toNat + k) % maxMsgs : Nat) := by
    have hnonneg := h.nonneg
    rw [Int32.toInt_mod, h.head, show (100 : Int32).toInt = 100 by decide, maxMsgs,
      Int.tmod_eq_emod_of_nonneg (by omega)]
    omega
  rw [ObufQueue.index, hmod, inBounds_of (by omega), ok_bind, Int.toNat_natCast]
  rfl

theorem Taken.headEntry (h : Taken q0 k q) : Obuf.headEntry q = .ok (q0.message k) := by
  rw [Obuf.headEntry, h.index, ok_bind, h.entries, RingBuffer.taken_next (by decide)]
  rfl

/-- Taking the next message. The counter is an `int`, so it must not be at its end. -/
theorem Taken.popQueue (h : Taken q0 k q) : ∃ q', Obuf.popQueue q = .ok q' ∧
    (q0.head.toInt + k + 1 < 2 ^ 31 → Taken q0 (k + 1) q') := by
  rw [Obuf.popQueue, h.index, ok_bind]
  refine ⟨_, rfl, fun hroom => ⟨h.nonneg, ?_, h.tail, ?_⟩⟩
  · have hnonneg := h.nonneg
    show (q.head + 1).toInt = _
    rw [Int32.toInt_add, h.head, Int32.toInt_one, Int.bmod_eq_of_le (by omega) (by omega)]
    push_cast
    omega
  · show Function.update q.entries _ ObufEntry.fresh = _
    rw [h.entries, RingBuffer.taken_succ]

end ObufQueue

theorem Obuf.size_of {b : Build} {o : Obuf} (h : b.ndebug = true ∨
    ∀ p < o.redundancyLevel, (o.queue 0).head = (o.queue p).head ∧
      (o.queue 0).tail = (o.queue p).tail) :
    o.size b = .ok ((o.queue 0).tail - (o.queue 0).head) := by
  have hloop : checkLoop (fun p => do
      b.assert ((o.queue 0).head = (o.queue p).head) "obuf->queue[0].head == obuf->queue[p].head"
      b.assert ((o.queue 0).tail = (o.queue p).tail) "obuf->queue[0].tail == obuf->queue[p].tail")
      (o.redundancyLevel - 1) 1 = .ok () := by
    refine checkLoop_eq_ok.mpr fun p _ hp => ?_
    have hsame := h.imp_right fun h => h p (by omega)
    rw [Build.assert_of_or (hsame.imp_right And.left), ok_bind,
      Build.assert_of_or (hsame.imp_right And.right)]
  rw [size, hloop, ok_bind]
  rfl

/-- A message is taken from every queue and the checksum found in the first one is
returned. Without assertions it does not matter what is in the queues; with them all must
have the same message pending. -/
theorem Obuf.pop_of {b : Build} {o : Obuf} {e : Nat → ObufEntry} {q : Nat → ObufQueue}
    (hlevel : 0 < o.redundancyLevel)
    (hsame : b.ndebug = true ∨ ∀ p < o.redundancyLevel,
      (o.queue p).head < (o.queue p).tail ∧ e p = e 0)
    (hhead : ∀ p < o.redundancyLevel, headEntry (o.queue p) = .ok (e p))
    (hpop : ∀ p < o.redundancyLevel, popQueue (o.queue p) = .ok (q p)) :
    o.pop b = .ok ((e 0).crc,
      { o with queue := fun p => if p < o.redundancyLevel then q p else o.queue p }) := by
  have hpending : checkLoop (fun p => b.assert ((o.queue p).head < (o.queue p).tail)
      "obuf->queue[p].head < obuf->queue[p].tail") o.redundancyLevel 0 = .ok () :=
    checkLoop_eq_ok.mpr fun p _ hp => Build.assert_of_or (hsame.imp_right fun h => (h p (by omega)).1)
  have hcompare : checkLoop (popCompare b o (e 0)) (o.redundancyLevel - 1) 1 = .ok () := by
    refine checkLoop_eq_ok.mpr fun p _ hp => ?_
    have heq : b.ndebug = true ∨ e p = e 0 := hsame.imp_right fun h => (h p (by omega)).2
    rw [popCompare, hhead p (by omega), ok_bind,
      Build.assert_of_or (heq.imp_right fun h => by rw [h]), ok_bind,
      Build.assert_of_or (heq.imp_right fun h => by rw [h]), ok_bind,
      Build.assert_of_or (heq.imp_right fun h => by rw [h])]
  obtain ⟨queue, hloop, hqueue⟩ : ∃ queue,
      forLoop (fun p queue => do
        let q ← popQueue (o.queue p)
        return Function.update queue p q) o.redundancyLevel 0 o.queue = .ok queue ∧
      queue = fun p => if p < 0 + o.redundancyLevel then q p else o.queue p := by
    refine forLoop_total (P := fun i queue =>
      queue = fun p => if p < i then q p else o.queue p) ?_ (by simp)
    rintro i queue _ hi rfl
    refine ⟨_, by rw [hpop i (by omega), ok_bind]; rfl, ?_⟩
    funext p
    rcases Nat.lt_trichotomy p i with hlt | rfl | hgt
    · rw [Function.update_of_ne (by omega), if_pos hlt, if_pos (by omega)]
    · rw [Function.update_self, if_pos (by omega)]
    · rw [Function.update_of_ne (by omega), if_neg (by omega), if_neg (by omega)]
  rw [Nat.zero_add] at hqueue
  rw [pop, hpending, ok_bind, hhead 0 hlevel, ok_bind, hcompare, ok_bind, hloop, ok_bind, hqueue]
  rfl

/-- The checksum that is returned is the one in the first queue, whose head entry is cleared. -/
theorem Obuf.pop_first {b : Build} {o o' : Obuf} {crc : UInt32} (hlevel : 0 < o.redundancyLevel)
    (h : o.pop b = .ok (crc, o')) : ∃ e, headEntry (o.queue 0) = .ok e ∧ crc = e.crc ∧
      popQueue (o.queue 0) = .ok (o'.queue 0) := by
  simp only [pop, bind_eq_ok, pure_eq_ok, Except.ok.injEq, Prod.mk.injEq] at h
  obtain ⟨_, -, e, he, _, -, queue, hloop, rfl, rfl⟩ := h
  obtain ⟨n, hn⟩ : ∃ n, o.redundancyLevel = n + 1 := ⟨o.redundancyLevel - 1, by omega⟩
  rw [hn, forLoop_succ, bind_eq_ok] at hloop
  obtain ⟨queue1, hfirst, hrest⟩ := hloop
  simp only [bind_eq_ok, Except.ok.injEq] at hfirst
  obtain ⟨q, hq, rfl⟩ := hfirst
  -- The later rounds are about other queues.
  have hkept : queue 0 = q := by
    refine forLoop_invariant (P := fun _ queue => queue 0 = q) (fun j queue queue' hj hsame hrun => ?_)
      (Function.update_self 0 q o.queue) hrest
    simp only [bind_eq_ok, Except.ok.injEq] at hrun
    obtain ⟨_, _, rfl⟩ := hrun
    rw [Function.update_of_ne (by omega)]
    exact hsame
  exact ⟨e, he, rfl, hq.trans (congrArg Except.ok hkept.symm)⟩

end LibSei
