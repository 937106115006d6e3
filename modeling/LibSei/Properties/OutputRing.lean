-- SUMMARY: The output rings as bounded queues over runs of any length, and the message at which their counters overflow.
import LibSei.Traversal.Outbox

/-!
# The ring over long runs

The counters of a ring are only ever increased. As long as the number of messages emitted since
the last reset can be counted by an `int`, a ring is a first-in first-out queue of at most
`MAX_MSGS` messages.
-/

namespace LibSei

open Memory Control

/-- A message as a phase emits it: the memory it is read from and its chunks. -/
structure Message where
  mem : Mem
  chunks : List (Nat × Nat)

namespace Message

variable (env : Env) (m : Message)

/-- The number of bytes, in a `size_t`. -/
def size : Nat := (m.chunks.map Prod.snd).sum % 2 ^ 64

/-- The checksum over all chunks. -/
def crc : UInt32 :=
  Crc.close (m.chunks.foldl (fun crc c => Crc.append env crc m.mem c.1 c.2) Crc.init)

/-- The entry of the message when it is finished. -/
def entry : ObufEntry := ⟨m.size, m.crc env, true⟩

/-- The entry of the message when all chunks are written. -/
def written : ObufEntry := m.chunks.foldl (fun e c => e.append env m.mem c.1 c.2) .fresh

theorem written_eq : m.written env =
    ⟨m.size, m.chunks.foldl (fun crc c => Crc.append env crc m.mem c.1 c.2) Crc.init, false⟩ := by
  have hfrom : ∀ chunks : List (Nat × Nat), ∀ size crc,
      chunks.foldl (fun e c => ObufEntry.append env e m.mem c.1 c.2) ⟨size % 2 ^ 64, crc, false⟩ =
        ⟨(size + (chunks.map Prod.snd).sum) % 2 ^ 64,
          chunks.foldl (fun crc c => Crc.append env crc m.mem c.1 c.2) crc, false⟩ := by
    intro chunks
    induction chunks with
    | nil => exact fun size crc => rfl
    | cons c chunks ih =>
      intro size crc
      rw [List.foldl_cons, List.foldl_cons, List.map_cons, List.sum_cons, ← Nat.add_assoc, ← ih,
        ObufEntry.append, Nat.mod_add_mod]
  rw [written, size, ← Nat.zero_add (List.sum _)]
  exact hfrom m.chunks 0 Crc.init

end Message

/-! ## Emitting messages -/

namespace Obuf

/-- A message in the current phase. -/
def emitMessage (env : Env) (b : Build) (o : Obuf) (m : Message) : Exec Obuf := do
  let o ← m.chunks.foldlM (fun o c => o.push env b m.mem c.1 c.2) o
  o.done b

/-- The messages of a phase, and the change to the next one. -/
def emitPhase (env : Env) (b : Build) (ms : List Message) (o : Obuf) : Exec Obuf := do
  let o ← ms.foldlM (emitMessage env b) o
  return o.close

/-- The same messages in every phase. -/
def emit (env : Env) (b : Build) (ms : List Message) (o : Obuf) : Exec Obuf :=
  forLoop (fun _ => emitPhase env b ms) o.redundancyLevel 0 o

/-- The queue of the current phase is replaced. -/
def withQueue (o : Obuf) (q : ObufQueue) : Obuf := { o with queue := Function.update o.queue o.p q }

theorem queue_withQueue (o : Obuf) (q : ObufQueue) :
    (o.withQueue q).queue (o.withQueue q).p = q :=
  Function.update_self ..

theorem withQueue_withQueue (o : Obuf) (q : ObufQueue) :
    (o.withQueue q).withQueue = o.withQueue := by
  funext q'
  rw [withQueue, withQueue, withQueue, Function.update_idem]

theorem withQueue_self (o : Obuf) : o.withQueue (o.queue o.p) = o := by
  rw [withQueue, Function.update_eq_self]

end Obuf

namespace ObufQueue

/-- A message in one queue. -/
def emitMessage (env : Env) (b : Build) (q : ObufQueue) (m : Message) : Exec ObufQueue := do
  let q ← m.chunks.foldlM (fun q c => q.push env b m.mem c.1 c.2) q
  q.done b

end ObufQueue

namespace Obuf

variable {env : Env} {b : Build} {o : Obuf}

/-- Steps that replace the queue of the current phase, one after the other. -/
theorem foldlM_withQueue {κ : Type} {f : Obuf → κ → Exec Obuf} {g : ObufQueue → κ → Exec ObufQueue}
    (hstep : ∀ o x, f o x = (g (o.queue o.p) x).map o.withQueue) (xs : List κ) (o : Obuf) :
    xs.foldlM f o = (xs.foldlM g (o.queue o.p)).map o.withQueue := by
  induction xs generalizing o with
  | nil => exact congrArg Except.ok o.withQueue_self.symm
  | cons x xs ih =>
    rw [List.foldlM_cons, List.foldlM_cons, hstep]
    cases g (o.queue o.p) x with
    | error e => rfl
    | ok q =>
      show xs.foldlM f (o.withQueue q) = (xs.foldlM g q).map o.withQueue
      rw [ih, queue_withQueue, withQueue_withQueue]

theorem push_eq (mem : Mem) (ptr size : Nat) :
    o.push env b mem ptr size = ((o.queue o.p).push env b mem ptr size).map o.withQueue := by
  rw [push]
  cases (o.queue o.p).push env b mem ptr size <;> rfl

theorem done_eq : o.done b = ((o.queue o.p).done b).map o.withQueue := by
  rw [done]
  cases (o.queue o.p).done b <;> rfl

theorem emitMessage_eq (m : Message) :
    o.emitMessage env b m = ((o.queue o.p).emitMessage env b m).map o.withQueue := by
  have hchunks := foldlM_withQueue (f := fun o c => o.push env b m.mem c.1 c.2)
    (g := fun q c => q.push env b m.mem c.1 c.2) (fun _ c => push_eq m.mem c.1 c.2) m.chunks o
  rw [emitMessage, hchunks, ObufQueue.emitMessage]
  cases m.chunks.foldlM (fun q c => q.push env b m.mem c.1 c.2) (o.queue o.p) with
  | error e => rfl
  | ok q =>
    show (o.withQueue q).done b = (q.done b).map o.withQueue
    rw [done_eq, queue_withQueue, withQueue_withQueue]

/-- A phase changes its own queue. -/
theorem emitPhase_eq (ms : List Message) :
    o.emitPhase env b ms = (ms.foldlM (ObufQueue.emitMessage env b) (o.queue o.p)).map
      fun q => (o.withQueue q).close := by
  rw [emitPhase, foldlM_withQueue fun o m => emitMessage_eq m]
  cases ms.foldlM (ObufQueue.emitMessage env b) (o.queue o.p) <;> rfl

end Obuf

namespace ObufQueue

variable {env : Env} {b : Build} {q q' : ObufQueue} {all : List ObufEntry} {taken : Nat}
  {e : ObufEntry} {m : Message} {ms : List Message}

theorem Records.pushAll (h : q.Records all taken e) (hroom : all.length < taken + maxMsgs)
    (hlen : all.length < 2 ^ 31) (hdone : e.done = false) (env : Env) (b : Build) (mem : Mem)
    (chunks : List (Nat × Nat)) :
    ∃ q', chunks.foldlM (fun q c => q.push env b mem c.1 c.2) q = .ok q' ∧
      q'.Records all taken (chunks.foldl (fun e c => e.append env mem c.1 c.2) e) := by
  induction chunks generalizing q e with
  | nil => exact ⟨q, rfl, h⟩
  | cons c chunks ih =>
    obtain ⟨q1, hpush, hq1⟩ : ∃ q1, q.push env b mem c.1 c.2 = .ok q1 ∧
        q1.Records all taken (e.append env mem c.1 c.2) := h.push hroom hlen (.inr hdone)
    obtain ⟨q', hrest, hq'⟩ := ih hq1 hdone
    exact ⟨q', by rw [List.foldlM_cons, hpush]; exact hrest, hq'⟩

/-- A message with content is added while the ring has room and the counter does not overflow. -/
theorem Records.emitMessage (h : q.Records all taken .fresh) (hroom : all.length < taken + maxMsgs)
    (hlen : all.length < 2 ^ 31) (hsize : 0 < m.size) (env : Env) (b : Build) :
    ∃ q', q.emitMessage env b m = .ok q' ∧ q'.Records (all ++ [m.entry env]) taken .fresh := by
  obtain ⟨q1, hpush, hq1⟩ := h.pushAll hroom hlen rfl env b m.mem m.chunks
  have hwritten := m.written_eq env
  rw [Message.written] at hwritten
  rw [hwritten] at hq1
  obtain ⟨q', hdone, hq'⟩ := hq1.finish (b := b) hroom hlen (.inr rfl) (.inr hsize)
  exact ⟨q', by rw [ObufQueue.emitMessage, hpush]; exact hdone, hq'⟩

theorem Records.emitAll (h : q.Records all taken .fresh)
    (hroom : all.length + ms.length ≤ taken + maxMsgs) (hlen : all.length + ms.length ≤ 2 ^ 31)
    (hsize : ∀ m ∈ ms, 0 < m.size) (env : Env) (b : Build) :
    ∃ q', ms.foldlM (ObufQueue.emitMessage env b) q = .ok q' ∧
      q'.Records (all ++ ms.map (Message.entry env)) taken .fresh := by
  induction ms generalizing q all with
  | nil => exact ⟨q, rfl, by rwa [List.map_nil, List.append_nil]⟩
  | cons m ms ih =>
    rw [List.length_cons] at hroom hlen
    obtain ⟨q1, hq1, h1⟩ := h.emitMessage (by omega) (by omega) (hsize m List.mem_cons_self) env b
    have hlength : (all ++ [m.entry env]).length = all.length + 1 := by simp
    obtain ⟨q', hq', h'⟩ := ih h1 (by omega) (by omega) fun m' hm' => hsize m' (List.mem_cons_of_mem m hm')
    refine ⟨q', by rw [List.foldlM_cons, hq1]; exact hq', ?_⟩
    rwa [List.append_assoc] at h'

theorem Records.of_pushAll (h : q.Records all taken e) (hb : b.ndebug = false) {mem : Mem}
    {chunks : List (Nat × Nat)}
    (hrun : chunks.foldlM (fun q c => q.push env b mem c.1 c.2) q = .ok q') :
    ∃ e', q'.Records all taken e' := by
  induction chunks generalizing q e with
  | nil =>
    cases hrun
    exact ⟨e, h⟩
  | cons c chunks ih =>
    rw [List.foldlM_cons, bind_eq_ok] at hrun
    obtain ⟨q1, hpush, hrest⟩ := hrun
    exact ih (h.of_push (.inl hb) hpush) hrest

/-- Messages that were added did not make the counter overflow more than once. -/
theorem Records.length_le_of_emitAll (h : q.Records all taken .fresh) (hb : b.ndebug = false)
    (hrun : ms.foldlM (ObufQueue.emitMessage env b) q = .ok q') : all.length + ms.length ≤ 2 ^ 31 := by
  induction ms generalizing q all with
  | nil => exact h.length_le
  | cons m ms ih =>
    rw [List.foldlM_cons, bind_eq_ok] at hrun
    obtain ⟨q1, hmessage, hrest⟩ := hrun
    rw [ObufQueue.emitMessage, bind_eq_ok] at hmessage
    obtain ⟨q2, hpush, hdone⟩ := hmessage
    obtain ⟨e', he'⟩ := h.of_pushAll hb hpush
    have hlength := ih (he'.of_done (.inl hb) hdone) hrest
    rw [List.length_append, List.length_singleton] at hlength
    rw [List.length_cons]
    omega

end ObufQueue

/-! ## Runs -/

namespace Obuf

/-- What a program does with the output queues at a fixed redundancy. -/
inductive RingCall where
  | emit (ms : List Message)
  | pop

/-- Every queue holds the pending messages in the slots from its head on, and its other slots are in
their initial state. -/
def Holds (o : Obuf) (pending : List ObufEntry) : Prop :=
  ∀ p < o.redundancyLevel, ∃ h, ObufQueue.index (o.queue p).head = .ok h ∧
    (∀ i (hi : i < pending.length), (o.queue p).entries ((h + i) % maxMsgs) = pending[i]) ∧
    ∀ s < maxMsgs, (∀ i < pending.length, (h + i) % maxMsgs ≠ s) → (o.queue p).entries s = .fresh

/-- The queues hold what is pending along the calls, no call stops, and every pop returns the checksum
of the oldest message. -/
def Upholds (env : Env) (b : Build) : List RingCall → Obuf → List ObufEntry → Prop
  | [], o, pending => o.Holds pending
  | .emit ms :: calls, o, pending => o.Holds pending ∧ ∃ o', o.emit env b ms = .ok o' ∧
      Upholds env b calls o' (pending ++ ms.map (Message.entry env))
  | .pop :: calls, o, pending => o.Holds pending ∧ ∃ crc o', o.pop b = .ok (crc, o') ∧
      pending.head?.map ObufEntry.crc = some crc ∧ Upholds env b calls o' pending.tail

/-- Messages have content, at most `MAX_MSGS` are pending, and only pending ones are popped. -/
def Bounded : List RingCall → Nat → Prop
  | [], _ => True
  | .emit ms :: calls, pending => (∀ m ∈ ms, 0 < m.size) ∧ pending + ms.length ≤ maxMsgs ∧
      Bounded calls (pending + ms.length)
  | .pop :: calls, pending => 0 < pending ∧ Bounded calls (pending - 1)

/-- The counters do not pass `INT_MAX` by more than one, and are then left alone. -/
def Counted : List RingCall → Nat → Prop
  | [], _ => True
  | .emit ms :: calls, total => total + ms.length ≤ 2 ^ 31 ∧ Counted calls (total + ms.length)
  | .pop :: calls, total => total < 2 ^ 31 ∧ Counted calls total

/-- All queues below `n` stand for the messages `all`, of which `taken` were popped. -/
structure Stands (o : Obuf) (n : Nat) (all : List ObufEntry) (taken : Nat) : Prop where
  p : o.p = 0
  pos : 0 < n
  level : o.redundancyLevel = n
  taken_lt : taken < 2 ^ 31
  records : ∀ j < n, (o.queue j).Records all taken .fresh

variable {env : Env} {b : Build} {o o' : Obuf} {n taken : Nat} {all : List ObufEntry}
  {ms : List Message} {calls : List RingCall}

theorem Stands.holds (h : o.Stands n all taken) : o.Holds (all.drop taken) := by
  intro p hp
  have hrec := h.records p (h.level ▸ hp)
  refine ⟨taken % maxMsgs, ?_, fun i hi => ?_, fun s hs hnone => ?_⟩
  · rw [hrec.head, ObufQueue.index_ofNat h.taken_lt]
  · have hroom := hrec.room
    rw [List.length_drop] at hi
    rw [Nat.mod_add_mod, hrec.window (taken + i) (by omega) (by omega),
      ObufQueue.tape_of_lt (by omega), List.getElem_drop]
  · -- The slot is at some place behind the pending messages.
    have hpos : 0 < maxMsgs := by decide
    have hmod := Nat.mod_lt taken hpos
    obtain ⟨i, hi, rfl⟩ : ∃ i < maxMsgs, (taken + i) % maxMsgs = s := by
      refine ⟨(s + maxMsgs - taken % maxMsgs) % maxMsgs, Nat.mod_lt _ hpos, ?_⟩
      rw [Nat.add_mod_mod, ← Nat.mod_add_mod,
        show taken % maxMsgs + (s + maxMsgs - taken % maxMsgs) = s + maxMsgs by omega,
        Nat.add_mod_right, Nat.mod_eq_of_lt hs]
    have hbehind : all.length ≤ taken + i := by
      by_contra hlt
      refine hnone i (by rw [List.length_drop]; omega) ?_
      rw [Nat.mod_add_mod]
    rw [hrec.window (taken + i) (by omega) (by omega)]
    rcases Nat.eq_or_lt_of_le hbehind with heq | hlt
    · rw [← heq, ObufQueue.tape_length]
    · exact ObufQueue.tape_of_gt hlt

/-- After phase `i` the queues before it have the new messages. -/
structure MidEmit (o : Obuf) (n i : Nat) (all new : List ObufEntry) (taken : Nat) : Prop where
  p : o.p = i % n
  level : o.redundancyLevel = n
  records : ∀ j < n, (o.queue j).Records (if j < i then all ++ new else all) taken .fresh

theorem Stands.emit (h : o.Stands n all taken)
    (hroom : all.length + ms.length ≤ taken + maxMsgs) (hlen : all.length + ms.length ≤ 2 ^ 31)
    (hsize : ∀ m ∈ ms, 0 < m.size) (env : Env) (b : Build) :
    ∃ o', o.emit env b ms = .ok o' ∧ o'.Stands n (all ++ ms.map (Message.entry env)) taken := by
  obtain ⟨o', hrun, hmid⟩ : ∃ o', forLoop (fun _ => emitPhase env b ms) n 0 o = .ok o' ∧
      MidEmit o' n (0 + n) all (ms.map (Message.entry env)) taken := by
    refine forLoop_total (P := fun i o => MidEmit o n i all (ms.map (Message.entry env)) taken) ?_
      ⟨h.p.trans (Nat.zero_mod n).symm, h.level, fun j hj => by rw [if_neg (by omega)]; exact h.records j hj⟩
    intro i o1 _ hi hmid
    have hp : o1.p = i := hmid.p.trans (Nat.mod_eq_of_lt (by omega))
    have hrec := hmid.records i (by omega)
    rw [if_neg (by omega)] at hrec
    obtain ⟨q, hq, hrecords⟩ := hrec.emitAll hroom hlen hsize env b
    refine ⟨(o1.withQueue q).close, by rw [emitPhase_eq, hp, hq]; rfl, ⟨?_, hmid.level, fun j hj => ?_⟩⟩
    · show (o1.p + 1) % o1.redundancyLevel = _
      rw [hp, hmid.level]
    · show (Function.update o1.queue o1.p q j).Records _ _ _
      rw [hp]
      rcases Nat.lt_trichotomy j i with hlt | rfl | hgt
      · rw [Function.update_of_ne (by omega), if_pos (by omega)]
        have hold := hmid.records j hj
        rwa [if_pos hlt] at hold
      · rwa [Function.update_self, if_pos (by omega)]
      · rw [Function.update_of_ne (by omega), if_neg (by omega)]
        have hold := hmid.records j hj
        rwa [if_neg (by omega)] at hold
  rw [Nat.zero_add] at hmid
  refine ⟨o', by rw [Obuf.emit, h.level, hrun], hmid.p.trans (Nat.mod_self n), h.pos, hmid.level,
    h.taken_lt, fun j hj => ?_⟩
  have hrec := hmid.records j hj
  rwa [if_pos hj] at hrec

/-- An emission that returns has not gone beyond the first overflow. -/
theorem Stands.length_le_of_emit (h : o.Stands n all taken) (hb : b.ndebug = false)
    (hrun : o.emit env b ms = .ok o') : all.length + ms.length ≤ 2 ^ 31 := by
  obtain ⟨k, hk⟩ : ∃ k, n = k + 1 := ⟨n - 1, by have := h.pos; omega⟩
  rw [Obuf.emit, h.level, hk, forLoop_succ, bind_eq_ok] at hrun
  obtain ⟨o1, hfirst, -⟩ := hrun
  rw [emitPhase_eq, h.p] at hfirst
  cases hq : ms.foldlM (ObufQueue.emitMessage env b) (o.queue 0) with
  | error e =>
    rw [hq] at hfirst
    cases hfirst
  | ok q => exact (h.records 0 h.pos).length_le_of_emitAll hb hq

/-- A pop with a message pending returns its checksum, as long as the tail has not overflowed. -/
theorem Stands.pop (h : o.Stands n all taken) (hlt : taken < all.length) (hlen : all.length < 2 ^ 31) :
    ∃ o', o.pop b = .ok (all[taken].crc, o') ∧ o'.Stands n all (taken + 1) := by
  have htake : ∀ j, ∃ q, j < n → Obuf.popQueue (o.queue j) = .ok q ∧
      q.Records all (taken + 1) .fresh := by
    intro j
    by_cases hj : j < n
    · obtain ⟨q, hq⟩ := (h.records j hj).take hlt
      exact ⟨q, fun _ => hq⟩
    · exact ⟨.fresh, fun h => absurd h hj⟩
  choose q hq using htake
  refine ⟨_, Obuf.pop_of (e := fun _ => all[taken]) (q := q) (h.level ▸ h.pos) (.inr fun j hj => ?_)
    (fun j hj => ?_) (fun j hj => (hq j (h.level ▸ hj)).1), h.p, h.pos, h.level, by omega, fun j hj => ?_⟩
  · exact ⟨(h.records j (h.level ▸ hj)).head_lt_tail.mpr ⟨hlt, hlen⟩, rfl⟩
  · exact (h.records j (h.level ▸ hj)).headEntry hlt
  · show (if j < o.redundancyLevel then q j else o.queue j).Records _ _ _
    rw [h.level, if_pos hj]
    exact (hq j hj).2

theorem Stands.lt_of_pop (h : o.Stands n all taken) (hb : b.ndebug = false) {r : UInt32 × Obuf}
    (hrun : o.pop b = .ok r) : all.length < 2 ^ 31 := by
  rw [Obuf.pop, seq_eq_ok, h.level, checkLoop_eq_ok] at hrun
  have hpending := hrun.1 0 (Nat.zero_le _) (by have := h.pos; omega)
  rw [Build.assert_eq_ok, hb] at hpending
  exact ((h.records 0 h.pos).head_lt_tail.mp (hpending.resolve_left (by decide))).2

theorem Stands.upholds_iff (h : o.Stands n all taken) (hb : b.ndebug = false)
    (hbounded : Bounded calls (all.length - taken)) :
    Upholds env b calls o (all.drop taken) ↔ Counted calls all.length := by
  induction calls generalizing o all taken with
  | nil => exact ⟨fun _ => trivial, fun _ => h.holds⟩
  | cons call calls ih =>
    have hle := (h.records 0 h.pos).taken_le
    cases call with
    | emit ms =>
      obtain ⟨hsize, hpending, hrest⟩ := hbounded
      have hlength : (all ++ ms.map (Message.entry env)).length = all.length + ms.length := by simp
      have hdrop : all.drop taken ++ ms.map (Message.entry env) =
          (all ++ ms.map (Message.entry env)).drop taken := (List.drop_append_of_le_length hle).symm
      have hbounded' : Bounded calls ((all ++ ms.map (Message.entry env)).length - taken) := by
        rw [hlength]
        rwa [show all.length + ms.length - taken = all.length - taken + ms.length by omega]
      constructor
      · rintro ⟨-, o', hrun, hupholds⟩
        have hlen := h.length_le_of_emit hb hrun
        obtain ⟨o1, hrun1, hstands⟩ := h.emit (by omega) hlen hsize env b
        rw [hrun, Except.ok.injEq] at hrun1
        rw [hdrop, hrun1] at hupholds
        have hcounted := (ih hstands hbounded').mp hupholds
        rw [hlength] at hcounted
        exact ⟨hlen, hcounted⟩
      · rintro ⟨hlen, hcounted⟩
        obtain ⟨o', hrun, hstands⟩ := h.emit (by omega) hlen hsize env b
        refine ⟨h.holds, o', hrun, ?_⟩
        rw [hdrop]
        exact (ih hstands hbounded').mpr (hlength ▸ hcounted)
    | pop =>
      obtain ⟨hpos, hrest⟩ := hbounded
      have hlt : taken < all.length := by omega
      have hhead : (all.drop taken).head?.map ObufEntry.crc = some all[taken].crc := by
        rw [List.head?_drop, List.getElem?_eq_getElem hlt]
        rfl
      have hbounded' : Bounded calls (all.length - (taken + 1)) := by
        rwa [show all.length - (taken + 1) = all.length - taken - 1 by omega]
      constructor
      · rintro ⟨-, crc, o', hrun, -, hupholds⟩
        have hlen := h.lt_of_pop hb hrun
        obtain ⟨o1, hrun1, hstands⟩ := h.pop (b := b) hlt hlen
        rw [hrun, Except.ok.injEq, Prod.mk.injEq] at hrun1
        rw [List.tail_drop, hrun1.2] at hupholds
        exact ⟨hlen, (ih hstands hbounded').mp hupholds⟩
      · rintro ⟨hlen, hcounted⟩
        obtain ⟨o', hrun, hstands⟩ := h.pop (b := b) hlt hlen
        refine ⟨h.holds, _, o', hrun, hhead, ?_⟩
        rw [List.tail_drop]
        exact (ih hstands hbounded').mpr hcounted

theorem stands_init (b : Build) (hn : 2 ≤ n) : Stands { init b with redundancyLevel := n } n [] 0 :=
  ⟨rfl, by omega, rfl, by decide, fun _ _ => ObufQueue.records_fresh⟩

/-- At a fixed redundancy and with assertions, the rings are first-in first-out queues along every
run in which at most `MAX_MSGS` messages are pending, exactly if no message or pop follows the 2^31st
message. -/
theorem ring_fifo_iff (env : Env) (b : Build) (hb : b.ndebug = false) (n : Nat) (hn : 2 ≤ n)
    (calls : List RingCall) (hbounded : Bounded calls 0) :
    Upholds env b calls { init b with redundancyLevel := n } [] ↔ Counted calls 0 :=
  (stands_init b hn).upholds_iff hb hbounded

/-- A message of one byte, emitted in both phases and popped. -/
theorem ring_fifo_oneByte : Upholds Env.plain (Build.twoWay false false)
    [.emit [⟨fun _ => 7, [(64, 1)]⟩], .pop] (init (Build.twoWay false false)) [] :=
  (ring_fifo_iff Env.plain (Build.twoWay false false) rfl 2 (by decide)
    [.emit [⟨fun _ => 7, [(64, 1)]⟩], .pop]
    ⟨fun m hm => by rw [List.mem_singleton.mp hm]; decide, by decide, by decide, trivial⟩).mpr
    ⟨by decide, by decide, trivial⟩

/-! ## The overflow -/

/-- A call, and the checksum it returns. -/
def RingCall.run (env : Env) (b : Build) : RingCall → Obuf → Exec (Option UInt32 × Obuf)
  | .emit ms, o => do
      let o ← o.emit env b ms
      return (none, o)
  | .pop, o => do
      let (crc, o) ← o.pop b
      return (some crc, o)

theorem RingCall.run_emit (h : o.emit env b ms = .ok o') :
    (RingCall.emit ms).run env b o = .ok (none, o') := by
  rw [RingCall.run, h]
  rfl

theorem RingCall.run_pop {crc : UInt32} (h : o.pop b = .ok (crc, o')) :
    RingCall.pop.run env b o = .ok (some crc, o') := by
  rw [RingCall.run, h]
  rfl

/-- A message emitted and popped, `k` times. -/
def rounds (m : Message) (k : Nat) : List RingCall := (List.replicate k [.emit [m], .pop]).flatten

theorem Stands.rounds {m : Message} {k : Nat} (h : o.Stands n all taken) (hall : taken = all.length)
    (hsize : 0 < m.size) (hk : all.length + k < 2 ^ 31) (env : Env) (b : Build) :
    ∃ rs o' all', runEach (RingCall.run env b) (Obuf.rounds m k) o = .ok (rs, o') ∧
      o'.Stands n all' (taken + k) ∧ all'.length = all.length + k := by
  induction k generalizing o all taken with
  | zero => exact ⟨[], o, all, rfl, h, rfl⟩
  | succ k ih =>
    have hpos : 0 < maxMsgs := by decide
    have hcontent : ∀ m' ∈ [m], 0 < m'.size := by simpa using hsize
    obtain ⟨o1, hemit, h1⟩ := h.emit (by rw [List.length_singleton]; omega)
      (by rw [List.length_singleton]; omega) hcontent env b
    have hlength : (all ++ [m].map (Message.entry env)).length = all.length + 1 := by simp
    obtain ⟨o2, hpop, h2⟩ := h1.pop (b := b) (by omega) (by omega)
    obtain ⟨rs, o', all', hrest, h', hall'⟩ := ih h2 (by omega) (by omega)
    refine ⟨_, o', all', runEach_cons_of (RingCall.run_emit hemit)
      (runEach_cons_of (RingCall.run_pop hpop) hrest), ?_, by omega⟩
    rwa [Nat.add_right_comm] at h'

/-- With the 2^31st message the tail becomes negative. Neither it nor a message behind it can be
handled. -/
theorem Stands.overflowed (h : o.Stands n all taken) (hb : b.ndebug = false)
    (hlen : all.length = 2 ^ 31) {m : Message} {c : Nat × Nat} {cs : List (Nat × Nat)}
    (hm : m.chunks = c :: cs) (env : Env) :
    o.pop b = .error (.assertion "obuf->queue[p].head < obuf->queue[p].tail") ∧
      o.emit env b [m] = .error (.outOfBounds "queue->entries") := by
  have hrec := h.records 0 h.pos
  obtain ⟨k, hk⟩ : ∃ k, n = k + 1 := ⟨n - 1, by have := h.pos; omega⟩
  constructor
  · have hpending : ¬ (o.queue 0).head < (o.queue 0).tail := by
      rw [hrec.head_lt_tail]
      omega
    rw [Obuf.pop, h.level, hk, checkLoop_succ, Build.assert, require_of_not (by simp [hb, hpending])]
    rfl
  · have hindex : ObufQueue.index (o.queue 0).tail = .error (.outOfBounds "queue->entries") := by
      rw [hrec.tail, hlen]
      rfl
    rw [Obuf.emit, h.level, hk, forLoop_succ, emitPhase_eq, h.p, List.foldlM_cons,
      ObufQueue.emitMessage, hm, List.foldlM_cons, ObufQueue.push, hindex]
    rfl

/-- After 2^31 messages of one byte, all but the last popped at once, the last one cannot be popped
and no other can be emitted. -/
theorem ring_overflows : ∃ rs o1 o2,
    runEach (RingCall.run Env.plain (Build.twoWay false false))
      (rounds ⟨fun _ => 7, [(64, 1)]⟩ (2 ^ 31 - 1)) (init (Build.twoWay false false)) = .ok (rs, o1) ∧
    o1.emit Env.plain (Build.twoWay false false) [⟨fun _ => 7, [(64, 1)]⟩] = .ok o2 ∧
    o2.pop (Build.twoWay false false) =
      .error (.assertion "obuf->queue[p].head < obuf->queue[p].tail") ∧
    o2.emit Env.plain (Build.twoWay false false) [⟨fun _ => 7, [(64, 1)]⟩] =
      .error (.outOfBounds "queue->entries") := by
  have hsize : 0 < Message.size ⟨fun _ => 7, [(64, 1)]⟩ := by decide
  have hcontent : ∀ m ∈ [(⟨fun _ => 7, [(64, 1)]⟩ : Message)], 0 < m.size := by
    intro m hm
    rw [List.mem_singleton.mp hm]
    exact hsize
  have hroom : 1 ≤ maxMsgs := by decide
  have hstart := stands_init (n := 2) (Build.twoWay false false) (by decide)
  obtain ⟨rs, o1, all, hrounds, h1, hall⟩ := hstart.rounds (k := 2 ^ 31 - 1) rfl hsize
    (by rw [List.length_nil]; omega) Env.plain (Build.twoWay false false)
  rw [List.length_nil] at hall
  obtain ⟨o2, hemit, h2⟩ := h1.emit (by rw [List.length_singleton]; omega)
    (by rw [List.length_singleton]; omega) hcontent Env.plain (Build.twoWay false false)
  have hlen : (all ++ [⟨fun _ => 7, [(64, 1)]⟩].map (Message.entry Env.plain)).length = 2 ^ 31 := by
    rw [List.length_append, List.length_map, List.length_singleton]
    omega
  obtain ⟨hpop, hnext⟩ := h2.overflowed (b := Build.twoWay false false)
    (m := ⟨fun _ => 7, [(64, 1)]⟩) rfl hlen rfl Env.plain
  exact ⟨rs, o1, o2, hrounds, hemit, hpop, hnext⟩

end Obuf

end LibSei
