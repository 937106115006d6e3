-- SUMMARY: What recovery restores: the memory after `sei_rollback`, from a phase after the first and from inside phase 0, and how a filtered restore differs from a plain one.
import LibSei.ModeCow.Commit
import LibSei.ModeCow.Phases

/-!
# Recovery

`sei_rollback` replays the log of phase 0, oldest entry first. Inside phase 0 this log
holds what the writes overwrote; from the first switch on it holds what phase 0 wrote.
The results here say for every byte what recovery leaves in it, and so when it brings
back the memory of `sei_begin`.
-/

namespace LibSei

open Memory Control

namespace World

section Recover

variable {env : Env} {b : Build} {n k : Nat} {w0 w w1 : World} {phases : Nat → List Call}
  {cs : List Call} {ws : List Write}

/-- Recovery starts where a phase was interrupted, or after a negative answer of
`sei_try_commit`. -/
def RecoversFrom (env : Env) (b : Build) (w w1 : World) : Prop :=
  w1 = w ∨ w.tryCommit env b = .ok (false, w1)

/-- What recovery leaves outside the blocks of the transaction, given what the log of
phase 0 holds. -/
theorem RecoversFrom.recover_mem (h : RecoversFrom env b w w1) (hholds : (w.sei.cow 0).Holds ws)
    (hsized : Abuf.Sized ws) :
    ∃ w', w1.recover env b = .ok w' ∧ ∀ a v, ¬ w.sei.talloc.InBlock env a →
      (w'.mem a = v ↔ Abuf.RestoresTo w.sei.talloc.addrInRange ws w.mem a v) := by
  have hsame : (w1.sei.cow 0).Holds ws ∧ w1.sei.talloc = w.sei.talloc ∧ w1.mem = w.mem := by
    rcases h with rfl | h
    · exact ⟨hholds, rfl, rfl⟩
    · obtain ⟨cf, rfl, _⟩ := tryCommit_spec h
      refine ⟨?_, rfl, rfl⟩
      show (rewindAll _ w.sei.cow 0).Holds ws
      unfold rewindAll
      split
      · exact ⟨hholds.pushed, hholds.entry⟩
      · exact hholds
  obtain ⟨hholds1, htalloc, hmem⟩ := hsame
  obtain ⟨w', hrun, hmem'⟩ := rollback_mem env b
    (w := { w1 with sei := { w1.sei with p := -1 } }) hholds1 hsized
  refine ⟨w', hrun, fun a v ha => ?_⟩
  have hbyte := hmem' a (by rw [htalloc]; exact ha)
  rw [hbyte, ← Abuf.runWrites_filteredWrites_eq_iff, htalloc]
  show runWrites _ w1.mem a = v ↔ _
  rw [hmem]

/-- From a phase after the first, recovery brings back the memory of `sei_begin` outside the
blocks exactly when replaying what phase 0 wrote does so: the last write of phase 0 to
each byte wrote what was there, and the interrupted phase changed no other byte. -/
theorem recover_laterPhase_iff (hk : 1 ≤ k) (hkn : k < n) (hidle : w0.Idle b n)
    (hrun : World.inPhase env b phases w0 k cs = .ok w) (hfrom : RecoversFrom env b w w1) :
    ∃ w', w1.recover env b = .ok w' ∧
      ((∀ a, ¬ w.sei.talloc.InBlock env a → w'.mem a = w0.mem a) ↔
        ∀ a, ¬ w.sei.talloc.InBlock env a →
          Abuf.RestoresTo w.sei.talloc.addrInRange (writesOf (phases 0))
            (runWrites (writesOf cs) w0.mem) a (w0.mem a)) := by
  have hin := hidle.inPhase hkn hrun
  obtain ⟨w', hrecover, hbyte⟩ := hfrom.recover_mem (hin.past 0 hk) (sized_writesOf _)
  refine ⟨w', hrecover, forall₂_congr fun a ha => ?_⟩
  rw [hbyte a _ ha, hin.mem]

/-- Phases that write back what they found are undone. -/
theorem recover_laterPhase_of_sameValue :
    ∃ w, World.inPhase Env.plain (Build.twoWay false true) (fun _ => [.write .uint8 0 0])
        (World.init (Build.twoWay false true) fun _ => 0) 1 [.write .uint8 0 0] = .ok w ∧
      ∃ w', w.recover Env.plain (Build.twoWay false true) = .ok w' ∧
        ∀ a, ¬ w.sei.talloc.InBlock Env.plain a → w'.mem a = 0 := by
  obtain ⟨w, hrun⟩ : ∃ w, World.inPhase Env.plain (Build.twoWay false true)
      (fun _ => [.write .uint8 0 0]) (World.init (Build.twoWay false true) fun _ => 0) 1
      [.write .uint8 0 0] = .ok w := ⟨_, rfl⟩
  obtain ⟨w', hrecover, hiff⟩ := recover_laterPhase_iff (by decide) (by decide)
    (World.idle_init _ _) hrun (.inl rfl)
  refine ⟨w, hrun, w', hrecover, hiff.mpr fun a _ => ⟨fun _ _ _ => rfl, ?_, ?_⟩⟩
  · rintro i hi _ _
    obtain rfl : i = 0 := Nat.lt_one_iff.mp hi
    show leByte 0 (a - 0) = 0
    simp [leByte]
  · intro _
    show store (fun _ => 0) 0 1 0 a = 0
    simp [store, leByte]

/-- Two phases that write the byte at address 0. -/
def oneWrite (_ : Nat) : List Call := [.write .uint8 0 1]

/-- Recovery from the second phase leaves the byte as phase 0 wrote it. -/
theorem recover_oneWrite :
    ∃ w w', World.inPhase Env.plain (Build.twoWay true true) oneWrite
        (World.init (Build.twoWay true true) fun _ => 0) 1 (oneWrite 1) = .ok w ∧
      w.recover Env.plain (Build.twoWay true true) = .ok w' ∧
      ¬ w.sei.talloc.InBlock Env.plain 0 ∧ w'.mem 0 = 1 := by
  refine ⟨_, _, rfl, rfl, ?_, rfl⟩
  rintro ⟨i, hi, _⟩
  exact absurd hi (Nat.not_lt_zero i)

/-! ## Inside phase 0 -/

/-- The entries outside the blocks that cover a byte, for writes that all start outside
them. -/
theorem lastRestored_olds_iff {inRange : Nat → Bool} {m : Mem} {a i : Nat}
    (hout : ∀ x ∈ ws, inRange x.addr = false) :
    Abuf.LastRestored inRange (olds ws m) a i ↔ LastWriter ws a i := by
  have hget : ∀ j (hj : j < ws.length) (hj' : j < (olds ws m).length),
      ((olds ws m)[j].Covers a ↔ ws[j].Covers a) ∧ inRange (olds ws m)[j].addr = false := by
    intro j hj hj'
    rw [getElem_olds hj]
    exact ⟨Iff.rfl, hout ws[j] (List.getElem_mem hj)⟩
  constructor
  · rintro ⟨hi', _, hcov, hlast⟩
    have hi : i < ws.length := by simpa using hi'
    refine ⟨hi, (hget i hi hi').1.mp hcov, fun j hj hij hcovj => ?_⟩
    have hj' : j < (olds ws m).length := by simpa using hj
    exact hlast j hj' hij (hget j hj hj').2 ((hget j hj hj').1.mpr hcovj)
  · rintro ⟨hi, hcov, hlast⟩
    have hi' : i < (olds ws m).length := by simpa using hi
    refine ⟨hi', (hget i hi hi').2, (hget i hi hi').1.mpr hcov, fun j hj' hij _ hcovj => ?_⟩
    have hj : j < ws.length := by simpa using hj'
    exact hlast j hj hij ((hget j hj hj').1.mp hcovj)

/-- Replaying the undo log of the writes so far leaves `v` in byte `a` exactly when `v` is
what the last write to `a` overwrote, or null if its entry is cleared. -/
theorem restoresTo_olds_iff {inRange : Nat → Bool} {m : Mem} {a : Nat}
    (hout : ∀ x ∈ ws, inRange x.addr = false) :
    Abuf.RestoresTo inRange (olds ws m) (runWrites ws m) a (m a) ↔
      ∀ i, LastWriter ws a i →
        (Abuf.Cleared inRange (olds ws m) (runWrites ws m) i → m a = 0) ∧
        (¬ Abuf.Cleared inRange (olds ws m) (runWrites ws m) i → memBefore ws m i a = m a) := by
  have hbyte : ∀ i (hi : i < ws.length) (hi' : i < (olds ws m).length), ws[i].Covers a →
      (olds ws m)[i].byteAt a = memBefore ws m i a := by
    intro i hi hi' hcov
    rw [getElem_olds hi, Write.byteAt_held hcov]
  constructor
  · intro h i hlast
    have hlast' := (lastRestored_olds_iff (m := m) hout).mpr hlast
    refine ⟨h.cleared i hlast', fun hnot => ?_⟩
    rw [← hbyte i hlast.1 hlast'.1 hlast.2.1]
    exact h.stored i hlast'.1 hlast' hnot
  · intro h
    refine ⟨fun i hlast hcleared => ?_, fun i hi hlast hnot => ?_, fun hnone => ?_⟩
    · exact (h i ((lastRestored_olds_iff hout).mp hlast)).1 hcleared
    · have hwriter := (lastRestored_olds_iff hout).mp hlast
      rw [hbyte i hwriter.1 hi hwriter.2.1]
      exact (h i hwriter).2 hnot
    · -- no write covers the byte, so it still holds its first value
      rcases exists_lastWriter ws a with hcov | ⟨i, hwriter⟩
      · exact runWrites_of_not_covers hcov
      · exact absurd ((lastRestored_olds_iff hout).mpr hwriter) (hnone i)

/-- From inside phase 0, for writes outside the blocks, recovery brings back the memory of
`sei_begin` exactly when the last write to each byte found the first value there: the log
is replayed oldest first, so of several entries for a byte the newest decides. -/
theorem recover_firstPhase_iff (hidle : w0.Idle b n)
    (hrun : World.inPhase env b phases w0 0 cs = .ok w)
    (hout : ∀ x ∈ writesOf cs, w.sei.talloc.addrInRange x.addr = false) :
    ∃ w', w.recover env b = .ok w' ∧
      ((∀ a, ¬ w.sei.talloc.InBlock env a → w'.mem a = w0.mem a) ↔
        ∀ a, ¬ w.sei.talloc.InBlock env a → ∀ i, LastWriter (writesOf cs) a i →
          (Abuf.Cleared w.sei.talloc.addrInRange (olds (writesOf cs) w0.mem) w.mem i →
            w0.mem a = 0) ∧
          (¬ Abuf.Cleared w.sei.talloc.addrInRange (olds (writesOf cs) w0.mem) w.mem i →
            memBefore (writesOf cs) w0.mem i a = w0.mem a)) := by
  have hin := hidle.inPhase (Nat.lt_of_lt_of_le (by decide) hidle.two_le) hrun
  have hfrom : RecoversFrom env b w w := .inl rfl
  obtain ⟨w', hrecover, hbyte⟩ := hfrom.recover_mem hin.current (sized_writesOf cs).olds
  refine ⟨w', hrecover, forall₂_congr fun a ha => ?_⟩
  rw [hbyte a _ ha, hin.mem]
  exact restoresTo_olds_iff hout

/-- One write to each byte is undone. -/
theorem recover_firstPhase_of_oneWrite :
    ∃ w, World.inPhase Env.plain (Build.twoWay false true) (fun _ => [])
        (World.init (Build.twoWay false true) fun _ => 7) 0 [.write .uint32 4 1] = .ok w ∧
      ∃ w', w.recover Env.plain (Build.twoWay false true) = .ok w' ∧
        ∀ a, ¬ w.sei.talloc.InBlock Env.plain a → w'.mem a = 7 := by
  obtain ⟨w, hrun, hrange⟩ : ∃ w, World.inPhase Env.plain (Build.twoWay false true) (fun _ => [])
      (World.init (Build.twoWay false true) fun _ => 7) 0 [.write .uint32 4 1] = .ok w ∧
      ∀ a, w.sei.talloc.addrInRange a = false := ⟨_, rfl, fun _ => rfl⟩
  obtain ⟨w', hrecover, hiff⟩ := recover_firstPhase_iff (World.idle_init _ _) hrun
    fun _ _ => hrange _
  refine ⟨w, hrun, w', hrecover, hiff.mpr fun a _ i hlast => ⟨?_, fun _ => ?_⟩⟩
  · rintro ⟨_, _, _, hpoints⟩
    exact absurd hpoints (by simp [hrange])
  · obtain rfl : i = 0 := Nat.lt_one_iff.mp hlast.1
    rfl

/-- Recovery from phase 0 after two writes to one byte leaves the first of them. -/
theorem recover_twoWrites :
    ∃ w w', World.inPhase Env.plain (Build.twoWay true true) (fun _ => [])
        (World.init (Build.twoWay true true) fun _ => 0) 0
        [.write .uint8 0 1, .write .uint8 0 2] = .ok w ∧
      (∀ a, w.sei.talloc.addrInRange a = false) ∧
      w.recover Env.plain (Build.twoWay true true) = .ok w' ∧
      ¬ w.sei.talloc.InBlock Env.plain 0 ∧ w'.mem 0 = 1 := by
  refine ⟨_, _, rfl, fun _ => rfl, rfl, ?_, rfl⟩
  rintro ⟨i, hi, _⟩
  exact absurd hi (Nat.not_lt_zero i)

end Recover

end World

/-! ## A filtered restore against a plain one -/

namespace Abuf

section Filtered

variable {inRange : Nat → Bool} {ws : List Write} {m : Mem} {x i : Nat}

/-- The last entry of the log to cover a byte is also the last one that a filtered restore
does not skip, if it starts outside the blocks. -/
theorem lastRestored_of_lastWriter (h : LastWriter ws x i) (hi : i < ws.length)
    (hout : inRange ws[i].addr = false) : LastRestored inRange ws x i :=
  ⟨hi, hout, h.2.1, fun j hj hij _ => h.2.2 j hj hij⟩

theorem filtered_eq_byteAt_iff (h : LastWriter ws x i) (hi : i < ws.length)
    (hout : inRange ws[i].addr = false) :
    runWrites (filteredWrites inRange ws m) m x = ws[i].byteAt x ↔
      (Cleared inRange ws m i → ws[i].byteAt x = 0) := by
  obtain ⟨hcleared, hstored⟩ := (lastRestored_of_lastWriter h hi hout).runWrites (m := m) hi
  by_cases hclear : Cleared inRange ws m i
  · rw [hcleared hclear, eq_comm]
    exact ⟨fun hzero _ => hzero, fun hzero => hzero hclear⟩
  · rw [hstored hclear]
    exact ⟨fun _ hclear' => absurd hclear' hclear, fun _ => rfl⟩

variable {b : Build} {a a' : Abuf} {m' : Mem}

/-- Outside the blocks a filtered restore leaves what a plain one leaves exactly when, for each
byte and the last entry that covers it: an entry that is cleared held null there, and an entry
that is skipped, since it starts in a block and reaches over its end, is made up for by what
the filtered restore leaves. -/
theorem restoreFiltered_agrees_iff (talloc : Talloc) (h : a.restore b m = .ok (a', m')) :
    ∃ m'', a.restoreFiltered b talloc m = .ok (a', m'') ∧
      ((∀ x, talloc.addrInRange x = false → m'' x = m' x) ↔
        ∀ x, talloc.addrInRange x = false → ∀ i (hi : i < a.writes.length),
          LastWriter a.writes x i →
            (talloc.addrInRange a.writes[i].addr = false →
              Cleared talloc.addrInRange a.writes m i → a.writes[i].byteAt x = 0) ∧
            (talloc.addrInRange a.writes[i].addr = true →
              RestoresTo talloc.addrInRange a.writes m x (a.writes[i].byteAt x))) := by
  obtain ⟨hknown, hr⟩ := restore_eq_ok.mp h
  obtain ⟨rfl, rfl⟩ := Prod.mk.inj hr
  refine ⟨_, restoreFiltered_eq_ok.mpr ⟨fun i hi => .inr (hknown i hi), rfl⟩, ?_⟩
  refine forall₂_congr fun x hx => ?_
  rcases exists_lastWriter a.writes x with hnone | ⟨i, hlast⟩
  · -- a byte that no entry covers is left alone by both
    constructor
    · rintro _ i hi ⟨_, hcov, _⟩
      exact absurd hcov (hnone _ (List.getElem_mem hi))
    · intro _
      rw [runWrites_of_not_covers hnone]
      refine (exists_lastRestored _ _ _ _).resolve_right fun ⟨i, hi, _, hcov, _⟩ => ?_
      exact hnone _ (List.getElem_mem hi) hcov
  · have hi := hlast.1
    rw [hlast.runWrites hi]
    cases hrange : talloc.addrInRange a.writes[i].addr with
    | false =>
      rw [filtered_eq_byteAt_iff hlast hi hrange]
      constructor
      · intro hzero j hj hjlast
        obtain rfl := hlast.unique hjlast
        exact ⟨fun _ => hzero, fun hin => absurd hin (by simp [hrange])⟩
      · intro hall
        exact (hall i hi hlast).1 hrange
    | true =>
      rw [runWrites_filteredWrites_eq_iff]
      constructor
      · intro hrestores j hj hjlast
        obtain rfl := hlast.unique hjlast
        exact ⟨fun hout => absurd hout (by simp [hrange]), fun _ => hrestores⟩
      · intro hall
        exact (hall i hi hlast).2 hrange

/-- One block of eight bytes at address 100. -/
def oneBlock : Talloc :=
  { Talloc.init (Build.twoWay false true) with allocations := fun _ => ⟨100, 8⟩, size := fun _ => 1 }

/-- The undo log of a handler that overwrote the word at address 8, which held 7. -/
def undoAtEight : Abuf := (Abuf.init 2 Nat.two_pos).push .uint64 8 7

/-- A pointer into no block is restored by both. -/
theorem restoreFiltered_agrees_undoAtEight :
    ∃ m' m'', undoAtEight.restore (Build.twoWay false true) (fun _ => 0) =
        .ok (undoAtEight.clean, m') ∧
      undoAtEight.restoreFiltered (Build.twoWay false true) oneBlock (fun _ => 0) =
        .ok (undoAtEight.clean, m'') ∧
      ∀ x, oneBlock.addrInRange x = false → m'' x = m' x := by
  obtain ⟨m', hrun⟩ : ∃ m', undoAtEight.restore (Build.twoWay false true) (fun _ => 0) =
    .ok (undoAtEight.clean, m') := ⟨_, rfl⟩
  obtain ⟨m'', hfiltered, hiff⟩ := restoreFiltered_agrees_iff oneBlock hrun
  refine ⟨m', m'', hrun, hfiltered, hiff.mpr fun x _ i hi _ => ?_⟩
  obtain rfl : i = 0 := Nat.lt_one_iff.mp hi
  have hnull : load (fun _ => 0) 8 8 = 0 := by decide
  have hout : oneBlock.addrInRange 8 = false := by decide
  refine ⟨fun _ ⟨_, _, hne, _⟩ => ?_, fun hin => absurd (hout.symm.trans hin) (by decide)⟩
  rw [memBefore_zero] at hne
  exact absurd hnull hne

/-- A global pointer that held 7 and was overwritten with the address of a fresh block: the
filtered restore leaves null, the plain one 7. -/
theorem restoreFiltered_clears_undoAtEight :
    ∃ m' m'', undoAtEight.restore (Build.twoWay false true) (store (fun _ => 0) 8 8 100) =
        .ok (undoAtEight.clean, m') ∧
      undoAtEight.restoreFiltered (Build.twoWay false true) oneBlock
        (store (fun _ => 0) 8 8 100) = .ok (undoAtEight.clean, m'') ∧
      oneBlock.addrInRange 8 = false ∧ m' 8 = 7 ∧ m'' 8 = 0 :=
  ⟨_, _, rfl, rfl, by decide, by decide, by decide⟩

end Filtered

end Abuf

end LibSei
