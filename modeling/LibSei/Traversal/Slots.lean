-- SUMMARY: The checksums in the ring of an output queue: each slot chains the messages written to it since it was last cleared.
import LibSei.Crc32c.Implementations
import LibSei.Traversal.Outbox

/-!
# Checksums in the ring

The checksum of a message is accumulated in a slot of the ring, chunk by chunk, and closed when
the message is finished. A slot is cleared when a message is taken from it. If the ring is full
and nothing stops the process, the next message goes into a slot that still holds one, and its
checksum is continued from the closed checksum found there.
-/

namespace LibSei

open Memory Control

/-! ## CRC32C -/

/-- The checksum function is the one `crc_module_init` picks on some machine. -/
def Env.UsesCrc32c (env : Env) : Prop :=
  ∃ lp64 ecx, ∀ crc (data : Crc32c.Data),
    env.crc32c crc data.bytes = Crc32c.crc32cImpl lp64 ecx crc data

/-- The checksum of a message given by its bytes. -/
def Crc.checksum (env : Env) (message : List UInt8) : UInt32 :=
  Crc.close (env.crc32c Crc.init message)

theorem Crc.compute_eq_checksum (env : Env) (mem : Mem) (block len : Nat) :
    Crc.compute env mem block len = Crc.checksum env (Machine.bytes mem block len) := rfl

namespace Env.UsesCrc32c

variable {env env' : Env} {crc : UInt32} {bytes rest : List UInt8}

theorem toBitVec (h : env.UsesCrc32c) :
    (env.crc32c crc bytes).toBitVec = Checksum.crc Crc32c.poly crc.toBitVec bytes := by
  obtain ⟨lp64, ecx, h⟩ := h
  rw [h crc ⟨0, bytes⟩]
  exact Crc32c.crc32cImpl_toBitVec crc ⟨0, bytes⟩ lp64 ecx

/-- All machines compute the same checksums. -/
theorem eq (h : env.UsesCrc32c) (h' : env'.UsesCrc32c) : env.crc32c = env'.crc32c := by
  funext crc bytes
  exact UInt32.toBitVec_inj.mp (h.toBitVec.trans h'.toBitVec.symm)

theorem nil (h : env.UsesCrc32c) : env.crc32c crc [] = crc :=
  UInt32.toBitVec_inj.mp h.toBitVec

theorem append (h : env.UsesCrc32c) :
    env.crc32c crc (bytes ++ rest) = env.crc32c (env.crc32c crc bytes) rest := by
  apply UInt32.toBitVec_inj.mp
  rw [h.toBitVec, h.toBitVec, h.toBitVec, Checksum.crc_append]

end Env.UsesCrc32c

/-! ## Slots -/

/-- The messages written to each slot of the ring since it was last cleared, with the number of
messages taken and finished. -/
structure Slots where
  head : Nat
  tail : Nat
  slot : Nat → List (List UInt8)

namespace Slots

def empty : Slots := ⟨0, 0, fun _ => []⟩

/-- A message is finished. -/
def put (r : Slots) (message : List UInt8) : Slots :=
  { r with
    tail := r.tail + 1
    slot := Function.update r.slot (r.tail % maxMsgs) (r.slot (r.tail % maxMsgs) ++ [message]) }

/-- A message is taken. -/
def take (r : Slots) : Slots :=
  { r with head := r.head + 1, slot := Function.update r.slot (r.head % maxMsgs) [] }

/-- The checksum of a slot with these messages. -/
def chained (env : Env) (messages : List (List UInt8)) : UInt32 :=
  messages.foldl (fun crc m => Crc.close (env.crc32c crc m)) Crc.init

@[simp] theorem chained_append (env : Env) (ms : List (List UInt8)) (m : List UInt8) :
    chained env (ms ++ [m]) = Crc.close (env.crc32c (chained env ms) m) := by
  simp [chained]

end Slots

namespace ObufQueue

/-- The queue has the checksums of the slots `r`, and `part` of the next message has been
written. -/
structure Follows (env : Env) (q : ObufQueue) (r : Slots) (part : List UInt8) : Prop where
  head : q.head = Int32.ofNat r.head
  tail : q.tail = Int32.ofNat r.tail
  tail_le : r.tail ≤ 2 ^ 31
  closed : ∀ s, s ≠ r.tail % maxMsgs → (q.entries s).crc = Slots.chained env (r.slot s)
  written : (q.entries (r.tail % maxMsgs)).crc =
    env.crc32c (Slots.chained env (r.slot (r.tail % maxMsgs))) part

variable {env : Env} {b : Build} {q q' : ObufQueue} {r : Slots} {part : List UInt8} {mem : Mem}
  {ptr size : Nat}

/-- Between two messages all slots are closed. -/
theorem Follows.entry (hcrc : env.UsesCrc32c) (h : Follows env q r []) (s : Nat) :
    (q.entries s).crc = Slots.chained env (r.slot s) := by
  rcases eq_or_ne s (r.tail % maxMsgs) with rfl | hne
  · rw [h.written, hcrc.nil]
  · exact h.closed s hne

theorem follows_of_entry (hcrc : env.UsesCrc32c) (hhead : q.head = Int32.ofNat r.head)
    (htail : q.tail = Int32.ofNat r.tail) (hle : r.tail ≤ 2 ^ 31)
    (hentry : ∀ s, (q.entries s).crc = Slots.chained env (r.slot s)) : Follows env q r [] :=
  ⟨hhead, htail, hle, fun s _ => hentry s, by rw [hcrc.nil, hentry]⟩

theorem follows_fresh (hcrc : env.UsesCrc32c) : Follows env fresh Slots.empty [] :=
  follows_of_entry hcrc rfl rfl (Nat.zero_le _) fun _ => rfl

/-- Appending a chunk. -/
theorem Follows.push (hcrc : env.UsesCrc32c) (h : Follows env q r part)
    (hrun : q.push env b mem ptr size = .ok q') :
    Follows env q' r (part ++ Machine.bytes mem ptr size) := by
  simp only [ObufQueue.push, h.tail, bind_eq_ok, pure_eq_ok, Except.ok.injEq] at hrun
  obtain ⟨i, hindex, _, -, rfl⟩ := hrun
  obtain ⟨-, rfl⟩ := index_ofNat_eq_ok h.tail_le hindex
  refine ⟨h.head, rfl, h.tail_le, fun s hs => ?_, ?_⟩
  · simp only [Function.update_of_ne hs]
    exact h.closed s hs
  · simp only [Function.update_self, hcrc.append, ← h.written]
    rfl

/-- Finishing the message: its slot is closed. -/
theorem Follows.done (hcrc : env.UsesCrc32c) (h : Follows env q r part)
    (hrun : q.done b = .ok q') : Follows env q' (r.put part) [] := by
  simp only [ObufQueue.done, h.tail, bind_eq_ok, pure_eq_ok, Except.ok.injEq] at hrun
  obtain ⟨i, hindex, _, -, _, -, _, -, rfl⟩ := hrun
  obtain ⟨hlt, rfl⟩ := index_ofNat_eq_ok h.tail_le hindex
  refine follows_of_entry hcrc h.head (Int32.ofNat_add _ _).symm hlt fun s => ?_
  rcases eq_or_ne s (r.tail % maxMsgs) with rfl | hne
  · simp only [Slots.put, Function.update_self, Slots.chained_append, ← h.written]
    rfl
  · simp only [Slots.put, Function.update_of_ne hne]
    exact h.closed s hne

/-- Taking a message: its slot is cleared. -/
theorem Follows.take {e : ObufEntry} (hcrc : env.UsesCrc32c) (h : Follows env q r [])
    (hlt : r.head < r.tail) (he : Obuf.headEntry q = .ok e) (hrun : Obuf.popQueue q = .ok q') :
    e.crc = Slots.chained env (r.slot (r.head % maxMsgs)) ∧ Follows env q' r.take [] := by
  have hindex : ObufQueue.index q.head = .ok (r.head % maxMsgs) := by
    rw [h.head]
    exact index_ofNat (lt_of_lt_of_le hlt h.tail_le)
  rw [Obuf.headEntry, hindex, ok_bind] at he
  rw [Obuf.popQueue, hindex, ok_bind] at hrun
  cases he
  cases hrun
  refine ⟨h.entry hcrc _, follows_of_entry hcrc ?_ h.tail h.tail_le fun s => ?_⟩
  · show q.head + 1 = _
    rw [h.head]
    exact (Int32.ofNat_add _ _).symm
  · rcases eq_or_ne s (r.head % maxMsgs) with rfl | hne
    · simp only [Slots.take, Function.update_self]
      rfl
    · simp only [Slots.take, Function.update_of_ne hne]
      exact h.entry hcrc s

end ObufQueue

end LibSei
