-- SUMMARY: The output queues as lists of messages: what appending, finishing and taking a message do to the list.
import LibSei.Traversal.Messages

/-!
# Output queues as lists

A queue stands for the list of all messages finished since it was last reset, the number
of those already taken, and the message being written. The ring is the window on this list
that starts at the first message not yet taken.
-/

namespace LibSei

open Memory Control

namespace ObufEntry

/-- The entry after `obuf_push`. -/
def append (env : Env) (e : ObufEntry) (mem : Mem) (ptr size : Nat) : ObufEntry :=
  { e with
    crc := Crc.append env e.crc mem ptr size
    size := (e.size + size) % 2 ^ 64 }

/-- The entry after `obuf_done`. -/
def finish (e : ObufEntry) : ObufEntry :=
  { e with crc := Crc.close (Crc.appendLen e.crc e.size), done := true }

end ObufEntry

namespace ObufQueue

/-! ## Counters -/

/-- Different counts up to the first overflow have different counters. -/
theorem ofNat_inj {j k : Nat} (hj : j ≤ 2 ^ 31) (hk : k ≤ 2 ^ 31)
    (h : Int32.ofNat j = Int32.ofNat k) : j = k := by
  have hbits := congrArg (fun x => x.toBitVec.toNat) h
  simp only [Int32.toBitVec_ofNat', BitVec.toNat_ofNat] at hbits
  omega

theorem index_ofNat {k : Nat} (h : k < 2 ^ 31) :
    ObufQueue.index (Int32.ofNat k) = .ok (k % maxMsgs) := by
  have hmod : (Int32.ofNat k % 100).toInt = (k % maxMsgs : Nat) := by
    rw [Int32.toInt_mod, Int32.toInt_ofNat_of_lt h, show (100 : Int32).toInt = 100 by decide, maxMsgs,
      Int.tmod_eq_emod_of_nonneg (by omega)]
    omega
  rw [ObufQueue.index, hmod, inBounds_of (by omega), ok_bind, Int.toNat_natCast]
  rfl

/-- The counter that has just overflowed has no slot. -/
theorem lt_of_index_ofNat {k i : Nat} (hk : k ≤ 2 ^ 31)
    (h : ObufQueue.index (Int32.ofNat k) = .ok i) : k < 2 ^ 31 := by
  by_contra hge
  obtain rfl : k = 2 ^ 31 := by omega
  rw [ObufQueue.index, seq_eq_ok, inBounds_eq_ok] at h
  exact absurd h.1 (by decide)

theorem index_ofNat_eq_ok {k i : Nat} (hk : k ≤ 2 ^ 31)
    (h : ObufQueue.index (Int32.ofNat k) = .ok i) : k < 2 ^ 31 ∧ i = k % maxMsgs := by
  have hlt := lt_of_index_ofNat hk h
  rw [index_ofNat hlt, Except.ok.injEq] at h
  exact ⟨hlt, h.symm⟩

/-! ## The list of a queue -/

/-- The messages in order, the one being written, and nothing behind it. -/
def tape (all : List ObufEntry) (e : ObufEntry) (i : Nat) : ObufEntry :=
  (all ++ [e]).getD i ObufEntry.fresh

section Tape

variable {all : List ObufEntry} {e e' : ObufEntry} {i : Nat}

theorem tape_of_lt (h : i < all.length) : tape all e i = all[i] := by
  simp [tape, List.getD_eq_getElem?_getD, List.getElem?_append_left h, h]

theorem tape_length : tape all e all.length = e := by
  simp [tape, List.getD_eq_getElem?_getD]

theorem tape_of_gt (h : all.length < i) : tape all e i = ObufEntry.fresh := by
  have hnone : (all ++ [e])[i]? = none := List.getElem?_eq_none (by simp; omega)
  simp [tape, List.getD_eq_getElem?_getD, hnone]

theorem tape_update : Function.update (tape all e) all.length e' = tape all e' := by
  funext j
  rcases Nat.lt_trichotomy j all.length with hlt | rfl | hgt
  · rw [Function.update_of_ne (by omega), tape_of_lt hlt, tape_of_lt hlt]
  · rw [Function.update_self, tape_length]
  · rw [Function.update_of_ne (by omega), tape_of_gt hgt, tape_of_gt hgt]

/-- A finished message is followed by an empty one. -/
theorem tape_append : tape (all ++ [e]) ObufEntry.fresh = tape all e := by
  funext j
  rcases Nat.lt_trichotomy j all.length with hlt | rfl | hgt
  · rw [tape_of_lt (by simp; omega), tape_of_lt hlt, List.getElem_append_left hlt]
  · rw [tape_of_lt (by simp), tape_length, List.getElem_concat_length rfl]
  · rw [tape_of_gt hgt]
    rcases Nat.eq_or_lt_of_le (Nat.succ_le_of_lt hgt) with heq | hlt
    · obtain rfl : j = (all ++ [e]).length := by simp; omega
      exact tape_length
    · exact tape_of_gt (by simp; omega)

end Tape

/-- The queue stands for the finished messages `all`, of which `taken` have been taken, and
for the message `e` being written. -/
structure Records (q : ObufQueue) (all : List ObufEntry) (taken : Nat) (e : ObufEntry) : Prop where
  head : q.head = Int32.ofNat taken
  tail : q.tail = Int32.ofNat all.length
  taken_le : taken ≤ all.length
  room : all.length ≤ taken + maxMsgs
  length_le : all.length ≤ 2 ^ 31
  done : ∀ x ∈ all, x.done = true
  full : all.length = taken + maxMsgs → e = ObufEntry.fresh
  window : RingBuffer.Window maxMsgs taken (tape all e) q.entries

theorem records_fresh : Records fresh [] 0 ObufEntry.fresh where
  head := rfl
  tail := rfl
  taken_le := Nat.le_refl 0
  room := Nat.zero_le _
  length_le := Nat.zero_le _
  done _ hx := by cases hx
  full _ := rfl
  window i _ _ := by
    rcases Nat.eq_zero_or_pos i with rfl | hpos
    · rfl
    · exact (tape_of_gt hpos).symm

section Records

variable {env : Env} {b : Build} {q q' : ObufQueue} {all : List ObufEntry} {taken : Nat}
  {e : ObufEntry} {mem : Mem} {ptr size : Nat}

/-- The entry at the tail is the message being written, while the ring has room for it. -/
theorem Records.entry_tail (h : Records q all taken e) (hroom : all.length < taken + maxMsgs) :
    q.entries (all.length % maxMsgs) = e := by
  rw [h.window _ h.taken_le hroom, tape_length]

/-- Appending to the message being written. -/
theorem Records.push (h : Records q all taken e) (hroom : all.length < taken + maxMsgs)
    (hlen : all.length < 2 ^ 31) (hdone : b.ndebug = true ∨ e.done = false) :
    ∃ q', q.push env b mem ptr size = .ok q' ∧
      Records q' all taken (e.append env mem ptr size) := by
  simp only [ObufQueue.push, h.tail, index_ofNat hlen, ok_bind, h.entry_tail hroom,
    Build.assert_of_or hdone]
  refine ⟨_, rfl, ?_⟩
  have hwindow := h.window.write h.taken_le hroom (e.append env mem ptr size)
  rw [tape_update] at hwindow
  exact ⟨h.head, rfl, h.taken_le, h.room, h.length_le, h.done, fun hfull => by omega, hwindow⟩

/-- Finishing the message being written. -/
theorem Records.finish (h : Records q all taken e) (hroom : all.length < taken + maxMsgs)
    (hlen : all.length < 2 ^ 31) (hdone : b.ndebug = true ∨ e.done = false)
    (hsize : b.ndebug = true ∨ e.size > 0) :
    ∃ q', q.done b = .ok q' ∧ Records q' (all ++ [e.finish]) taken ObufEntry.fresh := by
  have htail : Int32.ofNat all.length + 1 = Int32.ofNat (all.length + 1) := (Int32.ofNat_add _ _).symm
  have hpending : ((Int32.ofNat (all.length + 1) - Int32.ofNat taken).toInt ≤ maxMsgs) := by
    have hle := h.taken_le
    rw [← Int32.ofNat_sub _ _ (by omega), Int32.toInt_ofNat_of_lt (by simp only [maxMsgs] at *; omega)]
    omega
  simp only [ObufQueue.done, h.tail, h.head, index_ofNat hlen, ok_bind, h.entry_tail hroom,
    Build.assert_of_or hdone, Build.assert_of_or hsize, htail, Build.assert_of hpending]
  refine ⟨_, rfl, ?_⟩
  have hwindow := h.window.write h.taken_le hroom e.finish
  rw [tape_update, ← tape_append] at hwindow
  refine ⟨rfl, by simp, ?_, ?_, ?_, ?_, fun _ => rfl, hwindow⟩
  · simp only [List.length_append, List.length_singleton]
    exact Nat.le_succ_of_le h.taken_le
  · simp only [List.length_append, List.length_singleton]
    exact hroom
  · simp only [List.length_append, List.length_singleton]
    exact hlen
  · intro x hx
    rcases List.mem_append.mp hx with hx | hx
    · exact h.done x hx
    · obtain rfl := List.mem_singleton.mp hx
      rfl

/-- An entry at the tail that is not marked as done belongs to a ring with room. -/
theorem Records.room_of_entry (h : Records q all taken e)
    (hentry : (q.entries (all.length % maxMsgs)).done = false) :
    all.length < taken + maxMsgs := by
  by_contra hge
  have hroom := h.room
  have hpos : 0 < maxMsgs := by decide
  have hfull : all.length = taken + maxMsgs := by omega
  -- the ring is full, so the slot at the tail is the one of the first message not taken
  have hslot : q.entries (taken % maxMsgs) = all[taken] := by
    rw [h.window taken (Nat.le_refl _) (by omega), tape_of_lt (by omega)]
  rw [hfull, Nat.add_mod_right, hslot, h.done _ (List.getElem_mem _)] at hentry
  exact Bool.noConfusion hentry

theorem Records.room_of (h : Records q all taken e)
    (hroom : b.ndebug = false ∨ all.length < taken + maxMsgs)
    (hentry : b.ndebug = true ∨ (q.entries (all.length % maxMsgs)).done = false) :
    all.length < taken + maxMsgs := by
  rcases hroom with hb | hroom
  · exact h.room_of_entry (hentry.resolve_left (by simp [hb]))
  · exact hroom

/-- A push that returns has appended to the message being written: with assertions
always, without them if the ring has room. -/
theorem Records.of_push (h : Records q all taken e)
    (hroom : b.ndebug = false ∨ all.length < taken + maxMsgs)
    (hrun : q.push env b mem ptr size = .ok q') :
    Records q' all taken (e.append env mem ptr size) := by
  have hrun' := hrun
  simp only [ObufQueue.push, h.tail, bind_eq_ok, Build.assert_eq_ok] at hrun'
  obtain ⟨i, hindex, _, hentry, _⟩ := hrun'
  obtain ⟨hlen, rfl⟩ := index_ofNat_eq_ok h.length_le hindex
  have hroom := h.room_of hroom hentry
  rw [h.entry_tail hroom] at hentry
  obtain ⟨q1, hq1, hrecords⟩ : ∃ q1, q.push env b mem ptr size = .ok q1 ∧
      Records q1 all taken (e.append env mem ptr size) := h.push hroom hlen hentry
  rw [hrun, Except.ok.injEq] at hq1
  exact hq1 ▸ hrecords

/-- A message that was finished is the one being written, likewise. -/
theorem Records.of_done (h : Records q all taken e)
    (hroom : b.ndebug = false ∨ all.length < taken + maxMsgs) (hrun : q.done b = .ok q') :
    Records q' (all ++ [e.finish]) taken ObufEntry.fresh := by
  have hrun' := hrun
  simp only [ObufQueue.done, h.tail, bind_eq_ok, Build.assert_eq_ok] at hrun'
  obtain ⟨i, hindex, _, hentry, _, hsize, _⟩ := hrun'
  obtain ⟨hlen, rfl⟩ := index_ofNat_eq_ok h.length_le hindex
  have hroom := h.room_of hroom hentry
  rw [h.entry_tail hroom] at hentry hsize
  obtain ⟨q1, hq1, hrecords⟩ := h.finish hroom hlen hentry hsize
  rw [hrun, Except.ok.injEq] at hq1
  exact hq1 ▸ hrecords

/-- A message is pending when the counters say so: the one behind the last has not
overflowed. -/
theorem Records.head_lt_tail (h : Records q all taken e) :
    q.head < q.tail ↔ taken < all.length ∧ all.length < 2 ^ 31 := by
  have hle := h.taken_le
  have hlen := h.length_le
  rw [Int32.lt_iff_toInt_lt, h.head, h.tail]
  rcases Nat.lt_or_ge all.length (2 ^ 31) with hlt | hge
  · rw [Int32.toInt_ofNat_of_lt hlt, Int32.toInt_ofNat_of_lt (by omega)]
    omega
  · have hmin : (Int32.ofNat all.length).toInt = -2 ^ 31 := by
      rw [show all.length = 2 ^ 31 by omega]
      rfl
    have hlow := Int32.le_toInt (Int32.ofNat taken)
    rw [hmin]
    omega

/-- The entry at the head is the first message not taken. -/
theorem Records.headEntry (h : Records q all taken e) (hlt : taken < all.length) :
    Obuf.headEntry q = .ok all[taken] := by
  have hlen := h.length_le
  have hentry : q.entries (taken % maxMsgs) = all[taken] := by
    rw [h.window taken (Nat.le_refl _) (Nat.lt_add_of_pos_right (by decide)), tape_of_lt hlt]
  rw [Obuf.headEntry, h.head, index_ofNat (by omega), ok_bind, hentry]
  rfl

/-- Taking the first message not taken. -/
theorem Records.take (h : Records q all taken e) (hlt : taken < all.length) :
    ∃ q', Obuf.popQueue q = .ok q' ∧ Records q' all (taken + 1) e := by
  have hlen := h.length_le
  have hroom := h.room
  rw [Obuf.popQueue, h.head, index_ofNat (by omega), ok_bind]
  refine ⟨_, rfl, ?_⟩
  have hclear : tape all e (taken + maxMsgs) = ObufEntry.fresh := by
    rcases Nat.eq_or_lt_of_le hroom with heq | hlt
    · rw [← heq, tape_length]
      exact h.full heq
    · exact tape_of_gt hlt
  exact {
    head := (Int32.ofNat_add _ _).symm
    tail := h.tail
    taken_le := hlt
    room := by omega
    length_le := h.length_le
    done := h.done
    full := fun hfull => by omega
    window := h.window.advance hclear }

/-- A queue is taken from where its head is, whatever it holds there. -/
theorem exists_popQueue {k : Nat} (hhead : q.head = Int32.ofNat k) (hk : k < 2 ^ 31) :
    ∃ e q', Obuf.headEntry q = .ok e ∧ Obuf.popQueue q = .ok q' ∧ q'.head = Int32.ofNat (k + 1) := by
  rw [Obuf.headEntry, Obuf.popQueue, hhead, index_ofNat hk, ok_bind, ok_bind]
  exact ⟨_, _, rfl, rfl, (Int32.ofNat_add _ _).symm⟩

end Records

end ObufQueue

end LibSei
