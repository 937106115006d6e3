-- SUMMARY: The checksum handed out for a message is the one its receiver computes, unless a full ring was written over.
import LibSei.Cores.Prepare
import LibSei.Properties.Bookkeeping
import LibSei.Properties.OutputOrder
import LibSei.Traversal.Slots

/-!
# Checksums between sender and receiver

The sender accumulates the checksum of a message from its chunks, in every phase and in a slot
of a ring; the receiver computes it from the whole message, on another machine perhaps, and
redundantly. The two are the same whatever the chunks were. In a build without assertions,
however, a message may be written into a slot that still holds another one.
-/

namespace LibSei

open Memory Control

namespace World

/-! ## Messages and their chunks -/

/-- The messages the operations of a phase put together from chunks, and the one they leave
unfinished. The argument is the message begun before them. -/
def composed : List Call → Option (List UInt8) → Mem → List (List UInt8) × Option (List UInt8)
  | [], part, _ => ([], part)
  | .write t addr value :: cs, part, mem => composed cs part (store mem addr t.sizeof value)
  | .outputAppend ptr size :: cs, part, mem =>
      composed cs (some (part.getD [] ++ Machine.bytes mem ptr size)) mem
  | .outputDone :: cs, part, mem =>
      let (ms, part') := composed cs none mem
      (part.getD [] :: ms, part')
  | _ :: cs, part, mem => composed cs part mem

/-- The operations emit exactly the messages `ms`, in any chunks, on the memory they start
from. -/
def Composes (cs : List Call) (mem : Mem) (ms : List (List UInt8)) : Prop :=
  composed cs none mem = (ms, none)

/-- The entry of a message of which `part` has been written. -/
def partEntry (env : Env) (part : List UInt8) : ObufEntry :=
  ⟨part.length % 2 ^ 64, env.crc32c Crc.init part, false⟩

/-- The entry of a finished message. -/
def messageEntry (env : Env) (message : List UInt8) : ObufEntry :=
  ⟨message.length % 2 ^ 64, Crc.checksum env message, true⟩

section Composed

variable {env : Env} {b : Build} {cs : List Call} {mem : Mem} {u : Option (List UInt8)}
  {ms : List (List UInt8)} {q q' : ObufQueue} {r : Slots}

theorem getD_partEntry (hcrc : env.UsesCrc32c) (part : Option (List UInt8)) :
    (part.map (partEntry env)).getD .fresh = partEntry env (part.getD []) := by
  cases part with
  | none =>
    rw [Option.map_none, Option.getD_none, Option.getD_none, partEntry, hcrc.nil]
    rfl
  | some part => rfl

/-- Chunk by chunk the entry is that of what has been written. -/
theorem partEntry_append (hcrc : env.UsesCrc32c) (part : List UInt8) (ptr size : Nat) :
    (partEntry env part).append env mem ptr size =
      partEntry env (part ++ Machine.bytes mem ptr size) := by
  rw [partEntry, partEntry, ObufEntry.append, hcrc.append, List.length_append, Machine.bytes,
    List.length_map, List.length_range, Nat.mod_add_mod]
  rfl

/-- The checksums of the messages do not depend on the chunks. -/
theorem emitted_eq (hcrc : env.UsesCrc32c) (cs : List Call) (u : Option (List UInt8)) (mem : Mem) :
    emitted env cs (u.map (partEntry env)) mem =
      ((composed cs u mem).1.map (messageEntry env), (composed cs u mem).2.map (partEntry env)) := by
  induction cs generalizing u mem with
  | nil => rfl
  | cons c cs ih =>
    cases c with
    | outputAppend ptr size =>
      rw [emitted, composed, getD_partEntry hcrc, partEntry_append hcrc]
      exact ih (some (u.getD [] ++ Machine.bytes mem ptr size)) mem
    | outputDone =>
      have hrest := ih none mem
      rw [Option.map_none] at hrest
      rw [emitted, composed, getD_partEntry hcrc, hrest]
      rfl
    | write t addr value => exact ih u _
    | _ => exact ih u mem

theorem Composes.emits (hcrc : env.UsesCrc32c) (h : Composes cs mem ms) :
    Emits env cs mem (ms.map (messageEntry env)) := by
  have hemitted := emitted_eq hcrc cs none mem
  rw [h] at hemitted
  exact hemitted

/-- The queue of a phase follows the messages written to its slots. -/
theorem follows_of_emit (hcrc : env.UsesCrc32c) (h : q.Follows env r (u.getD []))
    (hms : composed cs u mem = (ms, none)) (hrun : emit env b cs q mem = .ok q') :
    q'.Follows env (ms.foldl Slots.put r) [] := by
  induction cs generalizing q r u mem ms with
  | nil =>
    cases hms
    cases hrun
    exact h
  | cons c cs ih =>
    cases c with
    | outputAppend ptr size =>
      rw [emit, bind_eq_ok] at hrun
      obtain ⟨q1, hpush, hrest⟩ := hrun
      exact ih (u := some (u.getD [] ++ Machine.bytes mem ptr size)) (h.push hcrc hpush) hms hrest
    | outputDone =>
      rw [emit, bind_eq_ok] at hrun
      obtain ⟨q1, hdone, hrest⟩ := hrun
      rw [composed, Prod.mk.injEq] at hms
      obtain ⟨rfl, hnone⟩ := hms
      rw [List.foldl_cons]
      exact ih (u := none) (h.done hcrc hdone) (Prod.ext rfl hnone) hrest
    | _ => exact ih h hms hrun

end Composed

/-! ## Sequences of messages -/

/-- What happens to the outputs: the messages of a transaction that commits with `level`
phases, or a checksum handed out at this level. -/
inductive Post where
  | transaction (level : Nat) (messages : List (List UInt8))
  | next (level : Nat) (crc : UInt32)

namespace Post

/-- The same as the queues see it. -/
def turn (env : Env) : Post → Turn
  | transaction n ms => .transaction n (ms.map (messageEntry env))
  | next n crc => .next n crc

def messages : Post → List (List UInt8)
  | transaction _ ms => ms
  | next _ _ => []

def crcs : Post → List UInt32
  | transaction _ _ => []
  | next _ crc => [crc]

/-- What it does to the slots. -/
def onSlots (r : Slots) : Post → Slots
  | transaction _ ms => ms.foldl Slots.put r
  | next _ _ => r.take

end Post

/-- All messages of a sequence, in order. -/
def sent (ps : List Post) : List (List UInt8) := ps.flatMap Post.messages

/-- All checksums handed out in a sequence, in order. -/
def handedOut (ps : List Post) : List UInt32 := ps.flatMap Post.crcs

/-- The slots of the ring after a sequence. -/
def slots (ps : List Post) : Slots := ps.foldl Post.onSlots Slots.empty

/-- At most `MAX_MSGS` messages were pending at any time. -/
def Fits (ps : List Post) : Prop :=
  ∀ qs, qs <+: ps → (sent qs).length ≤ (handedOut qs).length + maxMsgs

/-- The states reached from `sei_init` by committed transactions that emit the same messages in
all their phases, in any chunks, changes of the redundancy, code that does not touch the library,
and calls of `sei_output_next` while a message is pending. Any number of messages may be
pending. -/
inductive Exchange (env : Env) (b : Build) : List Post → World → Prop where
  | init (mem : Mem) : Exchange env b [] (World.init b mem)
  | work {ps w} (h : Exchange env b ps w) (machine : Machine) (ibuf : Ibuf) :
      Exchange env b ps ⟨{ w.sei with ibuf := ibuf }, machine⟩
  | set {ps w n s} (h : Exchange env b ps w) (hn : 2 ≤ n) (hle : n ≤ b.redundancy)
      (hset : w.sei.setRedundancy b n = .ok s) : Exchange env b ps { w with sei := s }
  | transaction {ps w phases ms w1 w2} (h : Exchange env b ps w)
      (hrun : World.finalPhase env b phases w = .ok w1)
      (hms : ∀ p < w.sei.redundancyLevel, Composes (phases p) w.mem ms)
      (hcommit : Committed env b w1 w2) :
      Exchange env b (ps ++ [.transaction w.sei.redundancyLevel ms]) w2
  | next {ps w crc w'} (h : Exchange env b ps w)
      (hpending : (handedOut ps).length < (sent ps).length)
      (hnext : w.outputNext b = .ok (crc, w')) :
      Exchange env b (ps ++ [.next w.sei.redundancyLevel crc]) w'

section Posts

variable {env : Env} {ps : List Post} {r : Slots}

theorem messages_map_turn (env : Env) (ps : List Post) :
    messages (ps.map (Post.turn env)) = (sent ps).map (messageEntry env) := by
  rw [messages, sent, List.flatMap_map, List.map_flatMap]
  congr 1
  funext p
  cases p <;> rfl

theorem returned_map_turn (env : Env) (ps : List Post) :
    returned (ps.map (Post.turn env)) = handedOut ps := by
  rw [returned, handedOut, List.flatMap_map]
  congr 1
  funext p
  cases p <;> rfl

theorem foldl_put_counts (ms : List (List UInt8)) :
    (ms.foldl Slots.put r).head = r.head ∧ (ms.foldl Slots.put r).tail = r.tail + ms.length := by
  induction ms generalizing r with
  | nil => exact ⟨rfl, rfl⟩
  | cons m ms ih =>
    obtain ⟨hhead, htail⟩ := ih (r := r.put m)
    refine ⟨hhead, htail.trans ?_⟩
    show r.tail + 1 + ms.length = r.tail + (ms.length + 1)
    omega

theorem slots_counts (ps : List Post) :
    (slots ps).head = (handedOut ps).length ∧ (slots ps).tail = (sent ps).length := by
  induction ps using List.reverseRecOn with
  | nil => exact ⟨rfl, rfl⟩
  | append_singleton ps p ih =>
    simp only [slots, handedOut, sent, List.foldl_append, List.flatMap_append, List.length_append,
      List.foldl_cons, List.foldl_nil, List.flatMap_cons, List.flatMap_nil, List.append_nil] at ih ⊢
    cases p with
    | transaction n ms =>
      obtain ⟨hhead, htail⟩ := foldl_put_counts (r := ps.foldl Post.onSlots Slots.empty) ms
      exact ⟨hhead.trans ih.1, htail.trans (congrArg (· + ms.length) ih.2)⟩
    | next n crc => exact ⟨congrArg (· + 1) ih.1, ih.2⟩

theorem Fits.of_append {p : Post} (h : Fits (ps ++ [p])) : Fits ps :=
  fun qs hqs => h qs (hqs.trans (List.prefix_append ps [p]))

end Posts

section Exchange

variable {env : Env} {b : Build} {ps : List Post} {w w' : World} {crc : UInt32} {m : List UInt8}

theorem Exchange.between (h : Exchange env b ps w) : Between env b w := by
  induction h with
  | init mem => exact .init mem
  | work _ machine ibuf ih => exact ih.work machine ibuf
  | set _ hn hle hset ih => exact ih.set hn hle hset
  | transaction _ hrun _ hcommit ih => exact ih.transaction (.none _) hrun hcommit
  | next _ _ hnext ih => exact ih.next hnext

theorem Exchange.startable (h : Exchange env b ps w) : w.Startable b w.sei.redundancyLevel := by
  obtain ⟨⟨n, hidle⟩, -⟩ := h.between.idle_clean
  rw [hidle.level]
  exact hidle.startable

/-- What the next call returns, and the slots of the first queue after it. -/
theorem follows_outputNext {r : Slots} (hcrc : env.UsesCrc32c)
    (hready : w.Startable b w.sei.redundancyLevel)
    (h : (w.sei.obuf.queue 0).Follows env r []) (hlt : r.head < r.tail)
    (hnext : w.outputNext b = .ok (crc, w')) :
    crc = Slots.chained env (r.slot (r.head % maxMsgs)) ∧
      (w'.sei.obuf.queue 0).Follows env r.take [] := by
  have hlevel : 0 < w.sei.obuf.redundancyLevel := by
    have hn := hready.two_le
    rw [hready.obuf_level]
    omega
  simp only [outputNext, bind_eq_ok, pure_eq_ok, Except.ok.injEq, Prod.mk.injEq] at hnext
  obtain ⟨_, -, _, -, _, -, ⟨crc', o⟩, hpop, rfl, rfl⟩ := hnext
  obtain ⟨e, he, rfl, hpopped⟩ := Obuf.pop_first hlevel hpop
  exact h.take hcrc hlt he hpopped

/-- The first queue follows the slots: it takes part in all transactions and calls. -/
theorem Exchange.follows (hcrc : env.UsesCrc32c) (h : Exchange env b ps w) :
    (w.sei.obuf.queue 0).Follows env (slots ps) [] := by
  induction h with
  | init mem => exact ObufQueue.follows_fresh hcrc
  | work _ _ _ ih => exact ih
  | set _ _ _ hset ih =>
    simp only [Sei.setRedundancy, bind_eq_ok, pure_eq_ok, Except.ok.injEq] at hset
    obtain ⟨_, _, _, _, rfl⟩ := hset
    exact ih
  | @transaction ps w phases ms w1 w2 h hrun hms hcommit ih =>
    have hready := h.startable
    have hn := hready.two_le
    obtain ⟨-, hemit⟩ := hready.emit_of_finalPhase hrun
    rw [hcommit.queue, slots, List.foldl_append]
    exact follows_of_emit (u := none) hcrc ih (hms 0 (by omega)) (hemit 0 (by omega))
  | @next ps w crc w' h hpending hnext ih =>
    obtain ⟨hhead, htail⟩ := slots_counts ps
    have hafter := (follows_outputNext hcrc h.startable ih (by omega) hnext).2
    rw [slots, List.foldl_append]
    exact hafter

/-- With assertions, or while the ring is large enough, the sequence is one that the queues
follow message by message. -/
theorem Exchange.history (hcrc : env.UsesCrc32c) (h : Exchange env b ps w)
    (hfits : b.ndebug = false ∨ Fits ps) : History env b (ps.map (Post.turn env)) w := by
  induction h with
  | init mem => exact .init mem
  | work _ machine ibuf ih => exact (ih hfits).work machine ibuf
  | set _ hn hle hset ih => exact (ih hfits).set hn hle hset
  | @transaction ps w phases ms w1 w2 h hrun hms hcommit ih =>
    have hhistory := ih (hfits.imp_right Fits.of_append)
    have hready := h.startable
    have hn := hready.two_le
    rw [List.map_append]
    refine hhistory.transaction ?_ hrun (fun p hp => (hms p hp).emits hcrc) hcommit
    rcases hfits with hb | hfits
    · -- The assertions of the queue have checked that there is room.
      obtain ⟨-, hemit⟩ := hready.emit_of_finalPhase hrun
      have hrecords := records_of_emit (e := none) hhistory.tracks.first
        ((hms 0 (by omega)).emits hcrc) (.inl hb) (hemit 0 (by omega))
      have hroom := hrecords.room
      rwa [List.length_append] at hroom
    · have hroom := hfits _ (List.prefix_rfl)
      simp only [sent, handedOut, List.flatMap_append, List.length_append, List.flatMap_cons,
        List.flatMap_nil, List.append_nil, Post.messages, Post.crcs] at hroom
      rw [messages_map_turn, returned_map_turn, List.length_map, List.length_map]
      exact hroom
  | @next ps w crc w' h hpending hnext ih =>
    rw [List.map_append]
    refine (ih (hfits.imp_right Fits.of_append)).next ?_ hnext
    rw [messages_map_turn, returned_map_turn, List.length_map]
    exact hpending

end Exchange

end World

/-! ## Receivers -/

/-- A process that receives the message, with what it does not depend on: its machine and build,
how it computes checksums redundantly, where the message lies. -/
structure Receiver (message : List UInt8) where
  env : Env
  crc32c : env.UsesCrc32c
  build : Build
  options : CoreOptions
  ibuf : Ibuf
  checked : build.ndebug = true ∨ ibuf.checked = 0
  cores : Cores
  enough : cores.Enough options
  mem : Mem
  ptr : Nat
  ptr_ne : ptr ≠ 0
  bytes : Machine.bytes mem ptr message.length = message

namespace Receiver

variable {message : List UInt8}

/-- `crc_compute` of the whole message. -/
def compute (r : Receiver message) : UInt32 := Crc.compute r.env r.mem r.ptr message.length

/-- `ibuf_prepare` returns 1, in the first round of its loop. -/
def Accepts (r : Receiver message) (crc : UInt32) : Prop :=
  ∀ mode moved rounds, ∃ i c, r.ibuf.prepare r.options r.build r.cores r.ptr message.length crc mode
    (fun _ _ => r.compute) moved (rounds + 1) = .ok (some true, i, c)

theorem compute_eq {env : Env} (hcrc : env.UsesCrc32c) (r : Receiver message) :
    r.compute = Crc.checksum env message := by
  rw [compute, Crc.compute_eq_checksum, r.bytes, Crc.checksum, Crc.checksum, r.crc32c.eq hcrc]

theorem accepts (r : Receiver message) : r.Accepts r.compute := fun _ _ _ =>
  Ibuf.prepare_of_eq r.checked r.ptr_ne r.enough fun _ _ => rfl

end Receiver

/-- The checksum is the one every receiver of the message computes, and all accept it. -/
def Agreed (crc : UInt32) (message : List UInt8) : Prop :=
  ∀ r : Receiver message, r.compute = crc ∧ r.Accepts crc

/-- A receiver that has the message at address 1. -/
def Receiver.plain {env : Env} (hcrc : env.UsesCrc32c) (message : List UInt8) : Receiver message where
  env := env
  crc32c := hcrc
  build := .twoWay false true
  options := .standard false false
  ibuf := ⟨0, 0, Crc.init, 0, .readOnly, 0⟩
  checked := .inr rfl
  cores := .start ⟨0#128, 3#128, 2, 0, 0⟩ {0, 1} 0
  enough := nofun
  mem a := message.getD (a - 1) 0
  ptr := 1
  ptr_ne := by decide
  bytes := by
    apply List.ext_getElem
    · simp [Machine.bytes]
    · intro i hi hi'
      simp [Machine.bytes, hi']

theorem agreed_iff {env : Env} {crc : UInt32} {message : List UInt8} (hcrc : env.UsesCrc32c) :
    Agreed crc message ↔ crc = Crc.checksum env message := by
  constructor
  · intro h
    rw [← (h (.plain hcrc message)).1, Receiver.compute_eq hcrc]
  · rintro rfl r
    have hcompute := r.compute_eq hcrc
    exact ⟨hcompute, hcompute ▸ r.accepts⟩

/-! ## Sender and receiver -/

namespace World

variable {env : Env} {b : Build} {ps : List Post} {w : World} {m : List UInt8}

/-- A message is pending. The checksum that is handed out for it is the one its receivers compute
and accept exactly if the messages written to its slot since the slot was last cleared chain to
it. So it is with assertions, and without them as long as no more than `MAX_MSGS` messages are
pending at a time; a checksum is then handed out if assertions are off, or if the redundancy was
not raised and the counters have not overflowed. -/
theorem outputNext_agreed_iff_chained (hcrc : env.UsesCrc32c) (h : Exchange env b ps w)
    (hm : (sent ps)[(handedOut ps).length]? = some m) :
    (∀ crc w', w.outputNext b = .ok (crc, w') → (Agreed crc m ↔
      Slots.chained env ((slots ps).slot ((handedOut ps).length % maxMsgs)) =
        Crc.checksum env m)) ∧
    (b.ndebug = false ∨ Fits ps →
      (∀ crc w', w.outputNext b = .ok (crc, w') → Agreed crc m) ∧
      (b.ndebug = true ∨ LevelsKept w.sei.redundancyLevel (ps.map (Post.turn env)) ∧
          (sent ps).length < 2 ^ 31 →
        ∃ crc w', w.outputNext b = .ok (crc, w'))) := by
  obtain ⟨hhead, htail⟩ := slots_counts ps
  obtain ⟨hlt, hentry⟩ := List.getElem?_eq_some_iff.mp hm
  have hpending : (returned (ps.map (Post.turn env))).length <
      (messages (ps.map (Post.turn env))).length := by
    rw [messages_map_turn, returned_map_turn, List.length_map]
    exact hlt
  refine ⟨fun crc w' hnext => ?_, fun hfits => ⟨fun crc w' hnext => ?_, fun hkept => ?_⟩⟩
  · have hchained := (follows_outputNext hcrc h.startable (h.follows hcrc) (by omega) hnext).1
    rw [hhead] at hchained
    rw [agreed_iff hcrc, hchained]
  · have htracks := (h.history hcrc hfits).tracks
    have hcrc' := (htracks.next hpending hnext).1
    rw [agreed_iff hcrc, hcrc']
    simp only [messages_map_turn, returned_map_turn, List.getElem_map, hentry]
    rfl
  · have htracks := (h.history hcrc hfits).tracks
    have hlen : b.ndebug = true ∨ (messages (ps.map (Post.turn env))).length < 2 ^ 31 := by
      rw [messages_map_turn, List.length_map]
      exact hkept.imp_right And.right
    obtain ⟨w', _, hnext, -⟩ := (htracks.inStep (hkept.imp_right And.left)).next hpending hlen
    exact ⟨_, w', hnext⟩

/-! ## A message in two chunks, and a full ring -/

/-- A machine without the crc32 instruction. -/
def software : Env :=
  { Env.plain with crc32c := fun crc bytes => Crc32c.crc32cSlicingBy8 crc ⟨0, bytes⟩ }

theorem usesCrc32c_software : software.UsesCrc32c := by
  refine ⟨true, 0, fun crc data => UInt32.toBitVec_inj.mp ?_⟩
  rw [Crc32c.crc32cImpl_toBitVec]
  exact Crc32c.crc32cSlicingBy8_toBitVec crc ⟨0, data.bytes⟩

/-- A transaction in a release build whose two phases make the operations `cs`, and the first
call of `sei_output_next` after it. -/
def emitAndTake (cs : List Call) : Exec (UInt32 × World) := do
  let w ← World.finalPhase software (.twoWay true false) (fun _ => cs)
    (World.init (.twoWay true false) fun _ => 0)
  let w ← w.commit software (.twoWay true false)
  w.outputNext (.twoWay true false)

theorem exchange_emitAndTake {cs : List Call} {ms : List (List UInt8)}
    (hms : Composes cs (fun _ => 0) ms) (hrun : (emitAndTake cs).isOk = true) :
    ∃ w crc w', Exchange software (.twoWay true false) [.transaction 2 ms] w ∧
      w.outputNext (.twoWay true false) = .ok (crc, w') := by
  obtain ⟨⟨crc, w'⟩, hrun⟩ : ∃ r, emitAndTake cs = .ok r := by
    cases h : emitAndTake cs with
    | ok r => exact ⟨r, rfl⟩
    | error e =>
      rw [h] at hrun
      cases hrun
  simp only [emitAndTake, bind_eq_ok] at hrun
  obtain ⟨w1, hfinal, w2, hcommit, hnext⟩ := hrun
  exact ⟨w2, crc, w', .transaction (.init fun _ => 0) hfinal (fun _ _ => hms) (.inl ⟨rfl, hcommit⟩),
    hnext⟩

/-- A message of three bytes in two chunks, with an empty one between them. -/
def twoChunks : List Call := [.outputAppend 0 1, .outputAppend 1 0, .outputAppend 1 2, .outputDone]

theorem outputNext_agreed_twoChunks :
    ∃ w crc w', Exchange software (.twoWay true false) [.transaction 2 [[0, 0, 0]]] w ∧
      w.outputNext (.twoWay true false) = .ok (crc, w') ∧ Agreed crc [0, 0, 0] := by
  have hms : Composes twoChunks (fun _ => 0) [[0, 0, 0]] := rfl
  obtain ⟨w, crc, w', h, hnext⟩ := exchange_emitAndTake hms (by decide +kernel)
  have hiff := (outputNext_agreed_iff_chained usesCrc32c_software h rfl).1 crc w' hnext
  exact ⟨w, crc, w', h, hnext, hiff.mpr rfl⟩

/-- One message more than the ring has slots, each of one byte. -/
def fullRing : List Call := (List.replicate (maxMsgs + 1) [.outputAppend 0 1, .outputDone]).flatten

/-- The last message is written into the slot of the first, and the checksum handed out for the
first message is that of neither. -/
theorem outputNext_disagreed_fullRing :
    ∃ w crc w', Exchange software (.twoWay true false)
        [.transaction 2 (List.replicate (maxMsgs + 1) [0])] w ∧
      w.outputNext (.twoWay true false) = .ok (crc, w') ∧ ¬ Agreed crc [0] := by
  have hms : Composes fullRing (fun _ => 0) (List.replicate (maxMsgs + 1) [0]) := rfl
  obtain ⟨w, crc, w', h, hnext⟩ := exchange_emitAndTake hms (by decide +kernel)
  refine ⟨w, crc, w', h, hnext, ?_⟩
  have hchained := (follows_outputNext usesCrc32c_software h.startable
    (h.follows usesCrc32c_software) (by decide) hnext).1
  have hslot : (slots [.transaction 2 (List.replicate (maxMsgs + 1) [0])]).slot 0 = [[0], [0]] := rfl
  rw [agreed_iff usesCrc32c_software, hchained]
  show ¬ Slots.chained software ((slots _).slot 0) = _
  rw [hslot]
  decide +kernel

end World

end LibSei
