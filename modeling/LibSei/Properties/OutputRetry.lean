-- SUMMARY: What a rolled back transaction does to the outputs of the transactions before it.
import LibSei.Properties.OutputOrder
import LibSei.Properties.Rollback

/-!
# Outputs and rollback

`sei_rollback` empties the queues of all phases of the transaction. They hold the messages
of the failed attempt, and also those of earlier transactions that have not been taken
yet. The results here say what is left to take when a transaction commits after any number
of failed attempts.
-/

namespace LibSei

open Memory Control

namespace World

/-! ## Attempts -/

/-- From `w` to `w'` a transaction was tried and rolled back `r` times. An attempt may do
anything in its phases and end anywhere, or in a negative answer of `sei_try_commit`. -/
inductive Attempts (env : Env) (b : Build) : Nat → World → World → Prop where
  | none (w : World) : Attempts env b 0 w w
  | rolledBack {r w w1 phases k cs w2 w3 w'} (h : Attempts env b r w w1)
      (hk : k < w1.sei.redundancyLevel) (hrun : World.inPhase env b phases w1 k cs = .ok w2)
      (hfrom : RecoversFrom env b w2 w3) (hrecover : w3.recover env b = .ok w') :
      Attempts env b (r + 1) w w'

section Attempts

variable {env : Env} {b : Build} {r n k : Nat} {w w1 w2 w3 w' : World} {phases : Nat → List Call}
  {cs : List Call}

/-- Recovery ends the transaction and empties the output queues of its phases. -/
theorem RecoversFrom.ended (h : RecoversFrom env b w2 w3) (hn : 0 < w2.sei.redundancyLevel)
    (hrecover : w3.recover env b = .ok w') :
    Ended w2 w' ∧ w'.sei.p = 0 ∧ w'.sei.obuf = w2.sei.obuf.reset := by
  rcases h with rfl | htry
  · obtain ⟨hend, hp, hobuf⟩ := rollback_ended (w := { w3 with sei := { w3.sei with p := -1 } }) hn
      hrecover
    exact ⟨{ hend with }, hp, hobuf⟩
  · have hsame : w3.sei.redundancyLevel = w2.sei.redundancyLevel ∧ w3.sei.obuf = w2.sei.obuf := by
      obtain ⟨_, rfl, _⟩ := tryCommit_spec htry
      exact ⟨rfl, rfl⟩
    obtain ⟨hend, hp, hobuf⟩ := rollback_ended (by rw [hsame.1]; exact hn) hrecover
    have hend' : Ended w3 w' := { hend with }
    exact ⟨hend'.of_tryCommit htry, hp, hobuf.trans (congrArg Obuf.reset hsame.2)⟩

/-- After any attempts the next one can start, and after a failed one the queues of the
phases are empty. -/
theorem Attempts.startable (h : Attempts env b r w w') (hidle : w.Idle b n) (hclear : w.Clear b) :
    w'.Startable b n ∧ w'.Clear b ∧
      (r ≠ 0 → ∀ j < n, w'.sei.obuf.queue j = ObufQueue.fresh) := by
  induction h with
  | none w => exact ⟨hidle.startable, hclear, fun hr => absurd rfl hr⟩
  | @rolledBack r w w1 phases k cs w2 w3 w' h hk hrun hfrom hrecover ih =>
    obtain ⟨hready, hclear, _⟩ := ih hidle hclear
    rw [hready.level] at hk
    have hin := hready.inPhase hk hrun
    obtain ⟨hend, hp, hobuf⟩ := hfrom.ended (by rw [hin.level]; omega) hrecover
    obtain ⟨hready', hclear'⟩ := hready.recovered hclear hk hrun hend hp hobuf
    refine ⟨hready', hclear', fun _ j hj => ?_⟩
    rw [hobuf]
    exact if_pos (by rw [(hready.obuf_inPhase hk hrun).2]; exact hj)

end Attempts

/-! ## Taking all that is pending -/

/-- The calls of `sei_output_next` that are made while the first queue has a message pending
return `crcs`, and then it is empty. -/
inductive Drains (b : Build) : World → List UInt32 → Prop where
  | done {w} (h : (w.sei.obuf.queue 0).head = (w.sei.obuf.queue 0).tail) : Drains b w []
  | next {w crc w' crcs} (hpending : (w.sei.obuf.queue 0).head < (w.sei.obuf.queue 0).tail)
      (hnext : w.outputNext b = .ok (crc, w')) (h : Drains b w' crcs) : Drains b w (crc :: crcs)

section Drains

variable {env : Env} {b : Build} {r n taken : Nat} {all ms : List ObufEntry} {heads : Nat → Nat}
  {ts : List Turn} {w w1 w2 w' : World} {phases : Nat → List Call} {crcs crcs' : List UInt32}

theorem Drains.unique (h : Drains b w crcs) (h' : Drains b w crcs') : crcs = crcs' := by
  induction h generalizing crcs' with
  | done hempty =>
    cases h' with
    | done => rfl
    | next hpending => exact absurd (hempty ▸ hpending) (Int32.lt_irrefl)
  | next hpending hnext h ih =>
    cases h' with
    | done hempty => exact absurd (hempty ▸ hpending) (Int32.lt_irrefl)
    | next _ hnext' h' =>
      rw [hnext, Except.ok.injEq, Prod.mk.injEq] at hnext'
      obtain ⟨rfl, rfl⟩ := hnext'
      rw [ih h']

theorem Drains.and_not_of_ne (h : Drains b w crcs) (hne : crcs' ≠ crcs) :
    Drains b w crcs ∧ ¬ Drains b w crcs' :=
  ⟨h, fun h' => hne (h'.unique h)⟩

/-- Queues in step hand out all messages not yet taken. -/
theorem InStep.drains (h : InStep b n all taken heads w) (hlen : all.length < 2 ^ 31) :
    Drains b w ((all.drop taken).map ObufEntry.crc) := by
  induction hk : all.length - taken generalizing taken heads w with
  | zero =>
    have hle := h.first.taken_le
    rw [List.drop_eq_nil_of_le (by omega)]
    refine .done ?_
    rw [h.first.head, h.first.tail, show taken = all.length by omega]
  | succ k ih =>
    have hlt : taken < all.length := by omega
    obtain ⟨w', _, hnext, hstep, _⟩ := h.next hlt (.inr hlen)
    rw [List.drop_eq_getElem_cons hlt]
    exact .next (h.first.head_lt_tail.mpr ⟨hlt, hlen⟩) hnext (ih hstep (by omega))

/-- After a failed attempt only the messages of the attempt that commits are there. -/
theorem Startable.inStep_of_fresh (h : w'.Startable b n) (hclear : w'.Clear b)
    (hfresh : ∀ j < n, w'.sei.obuf.queue j = ObufQueue.fresh)
    (hrun : World.finalPhase env b phases w' = .ok w1)
    (hms : ∀ p < n, Emits env (phases p) w'.mem ms) (hroom : ms.length ≤ maxMsgs)
    (hcommit : Committed env b w1 w2) : InStep b n ms 0 (fun _ => 0) w2 := by
  have hn := h.two_le
  obtain ⟨hend, hp⟩ := hcommit.ended
  obtain ⟨hidle, _⟩ := h.committed hclear hrun hend hp hcommit.obuf
  obtain ⟨_, hemit⟩ := h.emit_of_finalPhase hrun
  have hqueue := hcommit.queue
  have hrecords : ∀ j < n, (w2.sei.obuf.queue j).Records ms 0 .fresh := by
    intro j hj
    have hemit := hemit j hj
    rw [hfresh j hj] at hemit
    rw [hqueue]
    exact records_of_emit (e := none) ObufQueue.records_fresh (hms j hj)
      (.inr (by simp only [List.length_nil]; omega)) hemit
  exact ⟨hidle.p, by omega, hidle.obuf_level, hrecords 0 (by omega), fun _ => hrecords,
    fun j hj => ⟨(hrecords j hj).head, le_refl 0⟩⟩

/-- Without a failed attempt everything not yet taken is handed out exactly when the levels
were kept, where this is checked, and the counters have not overflowed. -/
theorem Tracks.drains_iff (h : Tracks b ts w) :
    Drains b w (((messages ts).drop (returned ts).length).map ObufEntry.crc) ↔
      (messages ts).drop (returned ts).length = [] ∨
        (b.ndebug = true ∨ LevelsKept w.sei.redundancyLevel ts) ∧ (messages ts).length < 2 ^ 31 := by
  constructor
  · intro hdrains
    by_cases hnil : (messages ts).drop (returned ts).length = []
    · exact .inl hnil
    obtain ⟨m, rest, hcons⟩ := List.exists_cons_of_ne_nil hnil
    rw [hcons, List.map_cons] at hdrains
    cases hdrains with
    | next hpending hnext _ =>
      refine .inr ⟨?_, (h.first.head_lt_tail.mp hpending).2⟩
      by_cases hb : b.ndebug = true
      · exact .inl hb
      · exact .inr (h.kept_of_next (by simpa using hb) hnext).1
  · rintro (hnil | ⟨hkept, hlen⟩)
    · rw [hnil]
      refine .done ?_
      have hle := h.first.taken_le
      have hge := List.drop_eq_nil_iff.mp hnil
      rw [h.first.head, h.first.tail, Nat.le_antisymm hle hge]
    · exact (h.inStep hkept).drains hlen

/-- After a transaction that was rolled back `r` times and then committed, the calls return
the checksums of all messages pending before it and then those of the committed attempt
exactly in two cases: it was never rolled back, and handing out is not stopped by an
assertion or an overflow; or nothing was pending before it. -/
theorem drains_retried_iff (h : History env b ts w)
    (hroom : (messages ts).length + ms.length ≤ (returned ts).length + maxMsgs)
    (hattempts : Attempts env b r w w') (hrun : World.finalPhase env b phases w' = .ok w1)
    (hms : ∀ p < w.sei.redundancyLevel, Emits env (phases p) w'.mem ms)
    (hcommit : Committed env b w1 w2) :
    Drains b w2 (((messages ts).drop (returned ts).length ++ ms).map ObufEntry.crc) ↔
      r = 0 ∧ ((messages ts).drop (returned ts).length ++ ms = [] ∨
        (b.ndebug = true ∨ LevelsKept w.sei.redundancyLevel ts) ∧
          (messages ts).length + ms.length < 2 ^ 31) ∨
      r ≠ 0 ∧ (messages ts).drop (returned ts).length = [] := by
  have htracks := h.tracks
  have hle := htracks.first.taken_le
  cases hattempts with
  | none =>
    have hafter := htracks.transaction hroom hrun hms hcommit
    have hlevel : w2.sei.redundancyLevel = w.sei.redundancyLevel := by
      obtain ⟨hidle, _⟩ := htracks.idle.startable.committed htracks.clear hrun hcommit.ended.1
        hcommit.ended.2 hcommit.obuf
      exact hidle.level
    have hkept : LevelsKept w2.sei.redundancyLevel
        (ts ++ [.transaction w.sei.redundancyLevel ms]) ↔ LevelsKept w.sei.redundancyLevel ts := by
      rw [hlevel]
      simp [LevelsKept, or_imp, forall_and, Turn.level]
    have hiff := hafter.drains_iff
    rw [hkept, messages_append, returned_append, messages_transaction, returned_transaction,
      List.append_nil, List.drop_append_of_le_length hle, List.length_append] at hiff
    rw [hiff]
    simp only [true_and, ne_eq, not_true_eq_false, false_and, or_false]
  | @rolledBack r _ w3 _ k cs w4 w5 _ hprev hk hstop hfrom hrecover =>
    have hall := Attempts.rolledBack hprev hk hstop hfrom hrecover
    obtain ⟨hready, hclear, hfresh⟩ := hall.startable htracks.idle htracks.clear
    have hstep := hready.inStep_of_fresh hclear (hfresh (Nat.succ_ne_zero r)) hrun hms (by omega) hcommit
    have hdrains := hstep.drains (by simp only [maxMsgs] at hroom; omega)
    rw [List.drop_zero] at hdrains
    constructor
    · intro hclaim
      -- as many checksums are handed out as the committed attempt emitted
      have hlength := congrArg List.length (hclaim.unique hdrains)
      simp only [List.length_map, List.length_append] at hlength
      exact .inr ⟨Nat.succ_ne_zero r, List.length_eq_zero_iff.mp (by omega)⟩
    · rintro (⟨hr, _⟩ | ⟨_, hnil⟩)
      · exact absurd hr (Nat.succ_ne_zero r)
      · rw [hnil, List.nil_append]
        exact hdrains

/-- A first transaction that is retried once. -/
theorem drains_retried_of_nothingPending :
    ∃ w' w1 w2 m, Attempts Env.plain (Build.twoWay true true) 1
        (World.init (Build.twoWay true true) fun _ => 1) w' ∧
      World.finalPhase Env.plain (Build.twoWay true true) (fun _ => oneByte) w' = .ok w1 ∧
      Committed Env.plain (Build.twoWay true true) w1 w2 ∧
      Drains (Build.twoWay true true) w2 [ObufEntry.crc m] := by
  obtain ⟨w', w1, w2, m, hattempts, hrun, hms, hcommit⟩ : ∃ w' w1 w2 m,
      Attempts Env.plain (Build.twoWay true true) 1
        (World.init (Build.twoWay true true) fun _ => 1) w' ∧
      World.finalPhase Env.plain (Build.twoWay true true) (fun _ => oneByte) w' = .ok w1 ∧
      Emits Env.plain oneByte w'.mem [m] ∧ Committed Env.plain (Build.twoWay true true) w1 w2 :=
    ⟨_, _, _, _, @Attempts.rolledBack _ _ _ _ _ (fun _ => oneByte) 1 oneByte _ _ _ (.none _)
      (by decide) rfl (.inl rfl) rfl, rfl, rfl, .inr ⟨rfl, _, rfl, rfl⟩⟩
  refine ⟨w', w1, w2, m, hattempts, hrun, hcommit, ?_⟩
  have hroom : (messages []).length + [m].length ≤ (returned []).length + maxMsgs :=
    Nat.le_add_left 1 99
  exact (drains_retried_iff (.init fun _ => 1) hroom hattempts hrun (fun _ _ => hms) hcommit).mpr
    (.inr ⟨one_ne_zero, rfl⟩)

/-- One message is pending. The next transaction is rolled back once and commits with a
message of its own: only this one is handed out. -/
theorem drains_retried_lost :
    ∃ w w' w1 w2 m, History Env.plain (Build.twoWay true true) [.transaction 2 [m]] w ∧
      Attempts Env.plain (Build.twoWay true true) 1 w w' ∧
      World.finalPhase Env.plain (Build.twoWay true true) (fun _ => oneByte) w' = .ok w1 ∧
      Emits Env.plain oneByte w'.mem [m] ∧ Committed Env.plain (Build.twoWay true true) w1 w2 ∧
      Drains (Build.twoWay true true) w2 [m.crc] ∧
      ¬ Drains (Build.twoWay true true) w2 [m.crc, m.crc] := by
  have hinit : History Env.plain (Build.twoWay true true) [] _ := .init fun _ => 1
  have hfirst := @History.transaction _ _ _ _ (fun _ => oneByte) [_] _ _ hinit (by decide) rfl
    (fun _ _ => rfl) (.inr ⟨rfl, _, rfl, rfl⟩)
  have hattempts := @Attempts.rolledBack Env.plain (Build.twoWay true true) _ _ _
    (fun _ => oneByte) 1 oneByte _ _ _ (.none _) hfirst.tracks.idle.two_le rfl (.inl rfl) rfl
  refine ⟨_, _, _, _, _, hfirst, hattempts, rfl, rfl, .inr ⟨rfl, _, rfl, rfl⟩, ?_⟩
  exact (Drains.next (by decide) rfl (.done rfl)).and_not_of_ne (List.cons_ne_self _ _)

end Drains

end World

end LibSei
