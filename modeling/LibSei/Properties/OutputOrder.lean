-- SUMMARY: The order in which output checksums are handed out over sequences of transactions whose redundancy changes.
import LibSei.ModeCow.Sequence
import LibSei.Properties.Outputs
import LibSei.Traversal.Outbox

/-!
# Outputs over sequences of transactions

A transaction with `n` phases adds its messages to the first `n` queues, and
`sei_output_next` takes from as many queues as the current redundancy says. So a queue
knows only the messages and the calls of those that had its phase. The results here follow
the queues over whole sequences and say when the checksums leave in the order in which the
messages were emitted.
-/

namespace LibSei

open Memory Control

namespace World

/-! ## The messages of a phase -/

/-- The messages the operations of a phase finish, and the one they leave unfinished. The
argument is the message begun before them. -/
def emitted (env : Env) : List Call → Option ObufEntry → Mem → List ObufEntry × Option ObufEntry
  | [], e, _ => ([], e)
  | .write t addr value :: cs, e, mem => emitted env cs e (store mem addr t.sizeof value)
  | .outputAppend ptr size :: cs, e, mem =>
      emitted env cs (some ((e.getD .fresh).append env mem ptr size)) mem
  | .outputDone :: cs, e, mem =>
      let (ms, e') := emitted env cs none mem
      ((e.getD .fresh).finish :: ms, e')
  | _ :: cs, e, mem => emitted env cs e mem

/-- The operations emit exactly the messages `ms` on the memory they start from. -/
def Emits (env : Env) (cs : List Call) (mem : Mem) (ms : List ObufEntry) : Prop :=
  emitted env cs none mem = (ms, none)

section Emitted

variable {env : Env} {b : Build} {cs : List Call} {mem : Mem} {ms all : List ObufEntry}
  {e : ObufEntry} {q q' : ObufQueue} {taken : Nat}

/-- A message that was begun is among those that are finished. -/
theorem ne_nil_of_emitted (h : emitted env cs (some e) mem = (ms, none)) : ms ≠ [] := by
  induction cs generalizing e mem with
  | nil => cases h
  | cons c cs ih =>
    cases c with
    | outputDone =>
      rw [emitted, Prod.mk.injEq] at h
      rw [← h.1]
      exact List.cons_ne_nil _ _
    | _ => exact ih h

/-- The queue of a phase follows the messages its operations emit: with assertions always,
without them if the ring has room for all. -/
theorem records_of_emit {e : Option ObufEntry} (h : q.Records all taken (e.getD .fresh))
    (hms : emitted env cs e mem = (ms, none))
    (hroom : b.ndebug = false ∨ all.length + ms.length ≤ taken + maxMsgs)
    (hrun : emit env b cs q mem = .ok q') : q'.Records (all ++ ms) taken .fresh := by
  induction cs generalizing q all e mem ms with
  | nil =>
    cases hms
    cases hrun
    rw [List.append_nil]
    exact h
  | cons c cs ih =>
    cases c with
    | outputAppend ptr size =>
      rw [emit, bind_eq_ok] at hrun
      obtain ⟨q1, hpush, hrest⟩ := hrun
      have hpos := List.length_pos_iff.mpr (ne_nil_of_emitted hms)
      exact ih (h.of_push (hroom.imp_right fun _ => by omega) hpush) hms hroom hrest
    | outputDone =>
      rw [emit, bind_eq_ok] at hrun
      obtain ⟨q1, hdone, hrest⟩ := hrun
      rw [emitted, Prod.mk.injEq] at hms
      obtain ⟨rfl, hnone⟩ := hms
      simp only [List.length_cons] at hroom
      have hq1 := h.of_done (hroom.imp_right fun _ => by omega) hdone
      rw [List.append_cons]
      exact ih hq1 (Prod.ext rfl hnone)
        (hroom.imp_right fun _ => by simp only [List.length_append, List.length_singleton]; omega) hrest
    | _ => exact ih h hms hroom hrun

end Emitted

/-! ## Queues in step -/

/-- Between transactions, the first queue stands for the messages `all`, of which `taken`
have been taken; with assertions so do the other queues below `n`. Without them, from queue
`j` as many have been taken as `heads` says. -/
structure InStep (b : Build) (n : Nat) (all : List ObufEntry) (taken : Nat) (heads : Nat → Nat)
    (w : World) : Prop where
  p : w.sei.p = -1
  pos : 0 < n
  level : w.sei.obuf.redundancyLevel = n
  first : (w.sei.obuf.queue 0).Records all taken .fresh
  others : b.ndebug = false → ∀ j < n, (w.sei.obuf.queue j).Records all taken .fresh
  heads : ∀ j < n, (w.sei.obuf.queue j).head = Int32.ofNat (heads j) ∧ heads j ≤ taken

section InStep

variable {env : Env} {b : Build} {n taken : Nat} {all : List ObufEntry} {heads : Nat → Nat}
  {w : World}

/-- What is at the head of each queue, and the queue without it. -/
theorem InStep.exists_pop (h : InStep b n all taken heads w) (hlt : taken < all.length) (j : Nat) :
    ∃ e q, j < n → Obuf.headEntry (w.sei.obuf.queue j) = .ok e ∧
      Obuf.popQueue (w.sei.obuf.queue j) = .ok q ∧ q.head = Int32.ofNat (heads j + 1) ∧
      (b.ndebug = false ∨ j = 0 → e = all[taken] ∧ q.Records all (taken + 1) .fresh) := by
  by_cases hj : j < n
  · obtain ⟨hhead, hle⟩ := h.heads j hj
    have hlen := h.first.length_le
    obtain ⟨e, q, he, hq, hhead'⟩ := ObufQueue.exists_popQueue hhead (by omega)
    refine ⟨e, q, fun _ => ⟨he, hq, hhead', fun hrec => ?_⟩⟩
    have hrecords : (w.sei.obuf.queue j).Records all taken .fresh := by
      rcases hrec with hb | rfl
      · exact h.others hb j hj
      · exact h.first
    obtain ⟨q', hq', htaken⟩ := hrecords.take hlt
    rw [hrecords.headEntry hlt, Except.ok.injEq] at he
    rw [hq, Except.ok.injEq] at hq'
    exact ⟨he.symm, hq' ▸ htaken⟩
  · exact ⟨.fresh, .fresh, fun h => absurd h hj⟩

/-- Queues in step return the checksum of the next message and stay in step. The message
must be pending by the counters where they are checked. -/
theorem InStep.next (h : InStep b n all taken heads w) (hlt : taken < all.length)
    (hlen : b.ndebug = true ∨ all.length < 2 ^ 31) :
    ∃ w' queue, w.outputNext b = .ok (all[taken].crc, w') ∧
      InStep b n all (taken + 1) (fun j => heads j + 1) w' ∧
      w' = { w with sei := { w.sei with obuf := { w.sei.obuf with queue := queue } } } ∧
      ∀ j, n ≤ j → queue j = w.sei.obuf.queue j := by
  choose e q hpops using h.exists_pop hlt
  have hsame : b.ndebug = true ∨ ∀ j < n, (w.sei.obuf.queue j).head < (w.sei.obuf.queue j).tail ∧
      e j = e 0 ∧ (w.sei.obuf.queue 0).head = (w.sei.obuf.queue j).head ∧
      (w.sei.obuf.queue 0).tail = (w.sei.obuf.queue j).tail := by
    by_cases hb : b.ndebug = true
    · exact .inl hb
    rw [Bool.not_eq_true] at hb
    have hlen := hlen.resolve_left (by simp [hb])
    refine .inr fun j hj => ?_
    have hj' := h.others hb j hj
    obtain ⟨hej, _⟩ := (hpops j hj).2.2.2 (.inl hb)
    obtain ⟨he0, _⟩ := (hpops 0 h.pos).2.2.2 (.inl hb)
    exact ⟨hj'.head_lt_tail.mpr ⟨hlt, hlen⟩, by rw [hej, he0], by rw [h.first.head, hj'.head],
      by rw [h.first.tail, hj'.tail]⟩
  have hpending : b.ndebug = true ∨ 0 < (w.sei.obuf.queue 0).tail - (w.sei.obuf.queue 0).head := by
    refine hlen.imp_right fun hlen => ?_
    rw [h.first.tail, h.first.head, ← Int32.ofNat_sub _ _ (by omega), Int32.lt_iff_toInt_lt,
      Int32.toInt_ofNat_of_lt (by omega)]
    show (0 : Int) < _
    omega
  have hlevel := h.level
  have hpop := Obuf.pop_of (b := b) (o := w.sei.obuf) (e := e) (q := q) (hlevel ▸ h.pos)
    (hsame.imp_right fun hs j hj => ⟨(hs j (hlevel ▸ hj)).1, (hs j (hlevel ▸ hj)).2.1⟩)
    (fun j hj => (hpops j (hlevel ▸ hj)).1) (fun j hj => (hpops j (hlevel ▸ hj)).2.1)
  rw [outputNext, Build.assert_of h.p, ok_bind,
    Obuf.size_of (hsame.imp_right fun hs j hj => (hs j (hlevel ▸ hj)).2.2), ok_bind,
    Build.assert_of_or hpending, ok_bind, hpop, ok_bind]
  obtain ⟨he0, hq0⟩ := (hpops 0 h.pos).2.2.2 (.inr rfl)
  refine ⟨_, _, by rw [he0]; rfl, ?_, rfl, fun j hj => if_neg (by omega)⟩
  refine ⟨h.p, h.pos, h.level, ?_, fun hb j hj => ?_, fun j hj => ?_⟩
  · simp only [hlevel, if_pos h.pos]
    exact hq0
  · simp only [hlevel, if_pos hj]
    exact ((hpops j hj).2.2.2 (.inl hb)).2
  · simp only [hlevel, if_pos hj]
    have hle := (h.heads j hj).2
    exact ⟨(hpops j hj).2.2.1, by omega⟩

end InStep

/-! ## Sequences of transactions -/

/-- What happens to the outputs between two transactions or in one: the messages of a
transaction that commits with `level` phases, or a checksum handed out at this level. -/
inductive Turn where
  | transaction (level : Nat) (messages : List ObufEntry)
  | next (level : Nat) (crc : UInt32)

namespace Turn

def level : Turn → Nat
  | transaction n _ => n
  | next n _ => n

def messages : Turn → List ObufEntry
  | transaction _ ms => ms
  | next _ _ => []

def crcs : Turn → List UInt32
  | transaction _ _ => []
  | next _ crc => [crc]

end Turn

/-- All messages of a sequence, in the order in which they were emitted. -/
def messages (ts : List Turn) : List ObufEntry := ts.flatMap Turn.messages

/-- All checksums handed out in a sequence, in order. -/
def returned (ts : List Turn) : List UInt32 := ts.flatMap Turn.crcs

/-- The part of a sequence that queue `j` sees. -/
def above (j : Nat) (ts : List Turn) : List Turn := ts.filter fun t => j < t.level

/-- Whatever emitted a message or took one had at least `n` phases. -/
def LevelsKept (n : Nat) (ts : List Turn) : Prop :=
  ∀ t ∈ ts, n ≤ t.level ∨ (t.messages = [] ∧ t.crcs = [])

/-- The states reached from `sei_init` by committed transactions that emit the same messages
in all their phases, changes of the redundancy, calls of `sei_output_next` and code that
does not touch the library. No call is made without a message pending, and no more than
`MAX_MSGS` are ever pending. -/
inductive History (env : Env) (b : Build) : List Turn → World → Prop where
  | init (mem : Mem) : History env b [] (World.init b mem)
  | work {ts w} (h : History env b ts w) (machine : Machine) (ibuf : Ibuf) :
      History env b ts ⟨{ w.sei with ibuf := ibuf }, machine⟩
  | set {ts w n s} (h : History env b ts w) (hn : 2 ≤ n) (hle : n ≤ b.redundancy)
      (hset : w.sei.setRedundancy b n = .ok s) : History env b ts { w with sei := s }
  | transaction {ts w phases ms w1 w2} (h : History env b ts w)
      (hroom : (messages ts).length + ms.length ≤ (returned ts).length + maxMsgs)
      (hrun : World.finalPhase env b phases w = .ok w1)
      (hms : ∀ p < w.sei.redundancyLevel, Emits env (phases p) w.mem ms)
      (hcommit : Committed env b w1 w2) :
      History env b (ts ++ [.transaction w.sei.redundancyLevel ms]) w2
  | next {ts w crc w'} (h : History env b ts w)
      (hpending : (returned ts).length < (messages ts).length)
      (hnext : w.outputNext b = .ok (crc, w')) :
      History env b (ts ++ [.next w.sei.redundancyLevel crc]) w'

section Turns

variable {ts : List Turn} {t : Turn} {j n : Nat}

@[simp] theorem messages_append (ts us : List Turn) :
    messages (ts ++ us) = messages ts ++ messages us := List.flatMap_append

@[simp] theorem returned_append (ts us : List Turn) :
    returned (ts ++ us) = returned ts ++ returned us := List.flatMap_append

@[simp] theorem messages_transaction (n : Nat) (ms : List ObufEntry) :
    messages [.transaction n ms] = ms := List.append_nil ms

@[simp] theorem returned_transaction (n : Nat) (ms : List ObufEntry) :
    returned [.transaction n ms] = [] := rfl

@[simp] theorem messages_next (n : Nat) (crc : UInt32) : messages [.next n crc] = [] := rfl

@[simp] theorem returned_next (n : Nat) (crc : UInt32) : returned [.next n crc] = [crc] := rfl

theorem above_append_of_lt (h : j < t.level) : above j (ts ++ [t]) = above j ts ++ [t] := by
  simp [above, h]

theorem above_append_of_ge (h : t.level ≤ j) : above j (ts ++ [t]) = above j ts := by
  simp [above, h]

/-- Leaving steps out of a sequence changes what it yields exactly when one of them yields
something. -/
theorem length_flatMap_above_eq_iff {β : Type} (f : Turn → List β) :
    ((above j ts).flatMap f).length = (ts.flatMap f).length ↔ ∀ t ∈ ts, j < t.level ∨ f t = [] := by
  induction ts with
  | nil => simp [above]
  | cons t ts ih =>
    have hle : ((above j ts).flatMap f).length ≤ (ts.flatMap f).length :=
      (List.filter_sublist.flatMap f).length_le
    by_cases ht : j < t.level
    · have hcons : above j (t :: ts) = t :: above j ts := by simp [above, ht]
      rw [hcons, List.flatMap_cons, List.flatMap_cons, List.length_append, List.length_append,
        Nat.add_left_cancel_iff, ih]
      simp [ht]
    · have hcons : above j (t :: ts) = above j ts := by simp [above, ht]
      rw [hcons, List.flatMap_cons, List.length_append, List.forall_mem_cons, ← ih,
        ← List.length_eq_zero_iff]
      omega

theorem flatMap_above {β : Type} {f : Turn → List β} (h : ∀ t ∈ ts, j < t.level ∨ f t = []) :
    (above j ts).flatMap f = ts.flatMap f :=
  (List.filter_sublist.flatMap f).eq_of_length ((length_flatMap_above_eq_iff f).mpr h)

theorem LevelsKept.messages_above (h : LevelsKept n ts) (hj : j < n) :
    messages (above j ts) = messages ts :=
  flatMap_above fun t ht => (h t ht).imp (by omega) And.left

theorem LevelsKept.returned_above (h : LevelsKept n ts) (hj : j < n) :
    returned (above j ts) = returned ts :=
  flatMap_above fun t ht => (h t ht).imp (by omega) And.right

end Turns

/-! ## The queues along a sequence -/

/-- The state after a sequence of turns: the library is ready for a transaction, and every
queue has seen its part of the sequence. Without assertions this is known of the first
queue and of how often the others were taken from. -/
structure Tracks (b : Build) (ts : List Turn) (w : World) : Prop where
  idle : w.Idle b w.sei.redundancyLevel
  clear : w.Clear b
  levels : ∀ t ∈ ts, 2 ≤ t.level
  first : (w.sei.obuf.queue 0).Records (messages ts) (returned ts).length .fresh
  others : b.ndebug = false → ∀ j < b.redundancy,
    (w.sei.obuf.queue j).Records (messages (above j ts)) (returned (above j ts)).length .fresh
  heads : ∀ j < b.redundancy,
    (w.sei.obuf.queue j).head = Int32.ofNat (returned (above j ts)).length
  inOrder : returned ts = ((messages ts).take (returned ts).length).map ObufEntry.crc

section Tracks

variable {env : Env} {b : Build} {ts : List Turn} {w w' : World} {n : Nat}

theorem tracks_init (mem : Mem) : Tracks b [] (World.init b mem) where
  idle := World.idle_init b mem
  clear := World.clear_init b mem
  levels _ ht := by cases ht
  first := ObufQueue.records_fresh
  others _ _ _ := ObufQueue.records_fresh
  heads _ _ := rfl
  inOrder := rfl

theorem Tracks.set (h : Tracks b ts w) (hn : 2 ≤ n) (hle : n ≤ b.redundancy) {s : Sei}
    (hset : w.sei.setRedundancy b n = .ok s) : Tracks b ts { w with sei := s } := by
  obtain ⟨hidle, hclear⟩ := h.idle.set h.clear hn hle hset
  have hqueue : s.obuf.queue = w.sei.obuf.queue := by
    simp only [Sei.setRedundancy, bind_eq_ok, pure_eq_ok, Except.ok.injEq] at hset
    obtain ⟨_, _, _, _, rfl⟩ := hset
    rfl
  refine ⟨?_, hclear, h.levels, ?_, fun hb j hj => ?_, fun j hj => ?_, h.inOrder⟩
  · rw [hidle.level]
    exact hidle
  · rw [hqueue]
    exact h.first
  · rw [hqueue]
    exact h.others hb j hj
  · rw [hqueue]
    exact h.heads j hj

theorem Tracks.transaction (h : Tracks b ts w) {phases : Nat → List Call} {ms : List ObufEntry}
    {w1 w2 : World} (hroom : (messages ts).length + ms.length ≤ (returned ts).length + maxMsgs)
    (hrun : World.finalPhase env b phases w = .ok w1)
    (hms : ∀ p < w.sei.redundancyLevel, Emits env (phases p) w.mem ms)
    (hcommit : Committed env b w1 w2) :
    Tracks b (ts ++ [.transaction w.sei.redundancyLevel ms]) w2 := by
  have hready := h.idle.startable
  have hn := hready.two_le
  have hle := hready.le
  obtain ⟨hend, hp⟩ := hcommit.ended
  obtain ⟨hidle, hclear⟩ := hready.committed h.clear hrun hend hp hcommit.obuf
  obtain ⟨_, hemit⟩ := hready.emit_of_finalPhase hrun
  have hrest := hready.queue_of_finalPhase hrun
  have hqueue := hcommit.queue
  refine ⟨?_, hclear, ?_, ?_, fun hb j hj => ?_, fun j hj => ?_, ?_⟩
  · rw [hidle.level]
    exact hidle
  · intro t ht
    rcases List.mem_append.mp ht with ht | ht
    · exact h.levels t ht
    · obtain rfl := List.mem_singleton.mp ht
      exact hn
  · rw [hqueue, messages_append, returned_append, messages_transaction, returned_transaction, List.append_nil]
    exact records_of_emit (e := none) h.first (hms 0 (by omega)) (.inr hroom) (hemit 0 (by omega))
  · rw [hqueue]
    rcases Nat.lt_or_ge j w.sei.redundancyLevel with hlt | hge
    · rw [above_append_of_lt hlt, messages_append, returned_append, messages_transaction, returned_transaction,
        List.append_nil]
      exact records_of_emit (e := none) (h.others hb j hj) (hms j hlt) (.inl hb) (hemit j hlt)
    · rw [above_append_of_ge hge, hrest j hge]
      exact h.others hb j hj
  · rw [hqueue]
    rcases Nat.lt_or_ge j w.sei.redundancyLevel with hlt | hge
    · rw [above_append_of_lt hlt, returned_append, returned_transaction, List.append_nil,
        emit_head (hemit j hlt)]
      exact h.heads j hj
    · rw [above_append_of_ge hge, hrest j hge]
      exact h.heads j hj
  · rw [messages_append, returned_append, returned_transaction, List.append_nil,
      List.take_append_of_le_length h.first.taken_le]
    exact h.inOrder

/-- While the levels are kept, all queues below the redundancy have seen everything. -/
theorem Tracks.inStep (h : Tracks b ts w)
    (hkept : b.ndebug = true ∨ LevelsKept w.sei.redundancyLevel ts) :
    InStep b w.sei.redundancyLevel (messages ts) (returned ts).length
      (fun j => (returned (above j ts)).length) w := by
  have hn := h.idle.two_le
  have hle := h.idle.le
  refine ⟨h.idle.p, by omega, h.idle.obuf_level, h.first, fun hb j hj => ?_, fun j hj => ?_⟩
  · have hkept := hkept.resolve_left (by simp [hb])
    have hall := h.others hb j (by omega)
    rw [hkept.messages_above hj, hkept.returned_above hj] at hall
    exact hall
  · exact ⟨h.heads j (by omega), (List.filter_sublist.flatMap Turn.crcs).length_le⟩

/-- With assertions a checksum is handed out only if the levels were kept. -/
theorem Tracks.kept_of_next (h : Tracks b ts w) (hb : b.ndebug = false) {crc : UInt32}
    (hnext : w.outputNext b = .ok (crc, w')) :
    LevelsKept w.sei.redundancyLevel ts ∧ (messages ts).length < 2 ^ 31 := by
  have hn := h.idle.two_le
  have hle := h.idle.le
  simp only [outputNext, Obuf.size, Obuf.pop, bind_eq_ok, checkLoop_eq_ok, Build.assert_eq_ok, hb,
    Bool.false_eq_true, false_or, h.idle.obuf_level, exists_const] at hnext
  obtain ⟨_, _, ⟨hsize, _⟩, _, _, ⟨hpending, _⟩, _⟩ := hnext
  obtain ⟨_, hlen⟩ := h.first.head_lt_tail.mp (hpending 0 (by omega) (by omega))
  -- the last queue has seen least, and its counters are those of the first
  obtain ⟨hhead, htail⟩ := hsize (w.sei.redundancyLevel - 1) (by omega) (by omega)
  have hlast := h.others hb (w.sei.redundancyLevel - 1) (by omega)
  rw [h.first.head, hlast.head] at hhead
  rw [h.first.tail, hlast.tail] at htail
  have htaken := h.first.taken_le
  have htaken' := hlast.taken_le
  have hlen' := hlast.length_le
  have hreturned := ObufQueue.ofNat_inj (by omega) (by omega) hhead
  have hmessages := ObufQueue.ofNat_inj (by omega) (by omega) htail
  refine ⟨fun t ht => ?_, hlen⟩
  have hms := (length_flatMap_above_eq_iff Turn.messages).mp hmessages.symm t ht
  have hcrc := (length_flatMap_above_eq_iff Turn.crcs).mp hreturned.symm t ht
  rcases hms with hlt | hms
  · exact .inl (by omega)
  · exact hcrc.imp (by omega) fun hcrc => ⟨hms, hcrc⟩

theorem Tracks.next (h : Tracks b ts w) (hlt : (returned ts).length < (messages ts).length)
    {crc : UInt32} (hnext : w.outputNext b = .ok (crc, w')) :
    crc = (messages ts)[(returned ts).length].crc ∧
      Tracks b (ts ++ [.next w.sei.redundancyLevel crc]) w' := by
  have hle := h.idle.le
  have hkept : b.ndebug = true ∨
      LevelsKept w.sei.redundancyLevel ts ∧ (messages ts).length < 2 ^ 31 := by
    by_cases hb : b.ndebug = true
    · exact .inl hb
    · exact .inr (h.kept_of_next (by simpa using hb) hnext)
  obtain ⟨w1, queue, hw1, hstep, rfl, hrest⟩ := (h.inStep (hkept.imp_right And.left)).next hlt
    (hkept.imp_right And.right)
  rw [hw1, Except.ok.injEq, Prod.mk.injEq] at hnext
  obtain ⟨rfl, rfl⟩ := hnext
  refine ⟨rfl, { h.idle with }, ⟨h.clear.cow, h.clear.size⟩, ?_, ?_, fun hb j hj => ?_,
    fun j hj => ?_, ?_⟩
  · intro t ht
    rcases List.mem_append.mp ht with ht | ht
    · exact h.levels t ht
    · obtain rfl := List.mem_singleton.mp ht
      exact h.idle.two_le
  · rw [messages_append, returned_append, messages_next, returned_next, List.append_nil, List.length_append]
    exact hstep.first
  · rcases Nat.lt_or_ge j w.sei.redundancyLevel with hlt | hge
    · have hkept := (hkept.resolve_left (by simp [hb])).1
      rw [above_append_of_lt hlt, messages_append, returned_append, messages_next, returned_next,
        List.append_nil, List.length_append, hkept.messages_above hlt, hkept.returned_above hlt]
      exact hstep.others hb j hlt
    · rw [above_append_of_ge hge]
      show (queue j).Records _ _ _
      rw [hrest j hge]
      exact h.others hb j hj
  · rcases Nat.lt_or_ge j w.sei.redundancyLevel with hlt | hge
    · rw [above_append_of_lt hlt, returned_append, returned_next, List.length_append]
      exact (hstep.heads j hlt).1
    · rw [above_append_of_ge hge]
      show (queue j).head = _
      rw [hrest j hge]
      exact h.heads j hj
  · rw [messages_append, returned_append, messages_next, returned_next, List.append_nil,
      List.length_append, List.length_singleton, List.take_succ_eq_append_getElem hlt, List.map_append,
      ← h.inOrder]
    rfl

/-- The queues along every sequence. -/
theorem History.tracks (h : History env b ts w) : Tracks b ts w := by
  induction h with
  | init mem => exact tracks_init mem
  | work h machine ibuf ih =>
    exact ⟨{ ih.idle with }, ⟨ih.clear.cow, ih.clear.size⟩, ih.levels, ih.first, ih.others, ih.heads,
      ih.inOrder⟩
  | set h hn hle hset ih => exact ih.set hn hle hset
  | transaction h hroom hrun hms hcommit ih => exact ih.transaction hroom hrun hms hcommit
  | next h hpending hnext ih => exact (ih.next hpending hnext).2

/-- With assertions the checksums handed out are always those of the first messages, in
order. The next call returns the checksum of the next message exactly when everything that
emitted or took a message so far had at least as many phases as the redundancy says now,
and the counters, which are never reduced, have not overflowed. -/
theorem outputNext_inOrder_iff (hb : b.ndebug = false) (h : History env b ts w) :
    returned ts = ((messages ts).take (returned ts).length).map ObufEntry.crc ∧
      ∀ m, (messages ts)[(returned ts).length]? = some m →
        ((∃ w', w.outputNext b = .ok (m.crc, w')) ↔
          LevelsKept w.sei.redundancyLevel ts ∧ (messages ts).length < 2 ^ 31) := by
  have htracks := h.tracks
  refine ⟨htracks.inOrder, fun m hm => ?_⟩
  obtain ⟨hlt, rfl⟩ := List.getElem?_eq_some_iff.mp hm
  constructor
  · rintro ⟨w', hnext⟩
    exact htracks.kept_of_next hb hnext
  · rintro ⟨hkept, hlen⟩
    obtain ⟨w', _, hnext, _⟩ := (htracks.inStep (.inr hkept)).next hlt (.inr hlen)
    exact ⟨w', hnext⟩

/-- The operations that emit the first byte of memory as a message. -/
def oneByte : List Call := [.outputAppend 0 1, .outputDone]

/-- The message is handed out at the redundancy it was emitted at. -/
theorem outputNext_inOrder_of_oneByte :
    ∃ w m w', History Env.plain (Build.twoWay false false) [.transaction 2 [m]] w ∧
      w.outputNext (Build.twoWay false false) = .ok (m.crc, w') := by
  obtain ⟨w1, w2, hrun, hcommit, hlevel⟩ : ∃ w1 w2, World.finalPhase Env.plain
      (Build.twoWay false false) (fun _ => oneByte)
      (World.init (Build.twoWay false false) fun _ => 1) = .ok w1 ∧
      w1.commit Env.plain (Build.twoWay false false) = .ok w2 ∧ w2.sei.redundancyLevel = 2 :=
    ⟨_, _, rfl, rfl, rfl⟩
  have h := @History.transaction _ _ _ _ _ [_] _ _ (.init fun _ => 1) (by decide) hrun
    (fun _ _ => rfl) (.inl ⟨rfl, hcommit⟩)
  obtain ⟨w', hnext⟩ := ((outputNext_inOrder_iff rfl h).2 _ rfl).mpr
    ⟨fun t ht => .inl (by
      rw [hlevel, List.mem_singleton.mp ht]
      decide), by decide⟩
  exact ⟨w2, _, w', h, hnext⟩

/-- Three phases emit a message, then four do: two messages are pending, and the next call
ends in an assertion. -/
theorem outputNext_threeThenFour :
    ∃ w m, History Env.plain (Build.fourWay false true)
        [.transaction 3 [m], .transaction 4 [m]] w ∧
      w.outputNext (Build.fourWay false true) =
        .error (.assertion "obuf->queue[0].tail == obuf->queue[p].tail") := by
  have hinit : History Env.plain (Build.fourWay false true) [] _ := .init fun _ => 1
  have hthree := History.set hinit (n := 3) (by decide) (by decide) rfl
  have hfirst := @History.transaction _ _ _ _ (fun _ => oneByte) [_] _ _ hthree (by decide) rfl
    (fun _ _ => rfl) (.inr ⟨rfl, _, rfl, rfl⟩)
  have hfour := History.set hfirst (n := 4) (by decide) (by decide) rfl
  have hsecond := @History.transaction _ _ _ _ (fun _ => oneByte) [_] _ _ hfour (by decide) rfl
    (fun _ _ => rfl) (.inr ⟨rfl, _, rfl, rfl⟩)
  exact ⟨_, _, hsecond, rfl⟩

end Tracks

end World

end LibSei
