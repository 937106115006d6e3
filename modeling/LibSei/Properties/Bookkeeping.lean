-- SUMMARY: The bookkeeping between transactions: nothing is left of any phase, whatever was tried and rolled back before.
import LibSei.ModeCow.PutAside
import LibSei.Properties.OutputRetry

/-!
# Bookkeeping between transactions

The logs, the allocation counters and the trash bin have one part for every phase the build
allows, and `sei_commit` and `sei_rollback` reset the parts of the phases in use. The number
of these changes from one transaction to the next, and an attempt that is rolled back may
leave different counts in its phases. The results here say that nothing is left over all
the same.
-/

namespace LibSei

open Memory Control

namespace World

/-- Nothing is left of a transaction in the part of any phase. -/
structure Clean (w : World) : Prop where
  cow : ∀ j, (w.sei.cow j).Empty
  talloc_p : w.sei.talloc.p = 0
  talloc_size : ∀ j, w.sei.talloc.size j = 0
  tbin : w.sei.tbin.Clean
  obuf_p : w.sei.obuf.p = 0

theorem clean_init (b : Build) (mem : Mem) : (World.init b mem).Clean :=
  ⟨fun _ => ⟨rfl, rfl⟩, rfl, fun _ => rfl, ⟨fun _ => rfl, fun _ _ => rfl⟩, rfl⟩

theorem Clean.clear {b : Build} {w : World} (h : w.Clean) : w.Clear b :=
  ⟨fun j _ => h.cow j, fun j _ => h.talloc_size j⟩

/-! ## Sequences of transactions -/

/-- States between transactions. Before a transaction commits, attempts of it may have been
rolled back; outside transactions the process does what it likes, changes the redundancy
and takes output checksums. -/
inductive Between (env : Env) (b : Build) : World → Prop where
  | init (mem : Mem) : Between env b (World.init b mem)
  | work {w} (h : Between env b w) (machine : Machine) (ibuf : Ibuf) :
      Between env b ⟨{ w.sei with ibuf := ibuf }, machine⟩
  | set {w n s} (h : Between env b w) (hn : 2 ≤ n) (hle : n ≤ b.redundancy)
      (hset : w.sei.setRedundancy b n = .ok s) : Between env b { w with sei := s }
  | next {w crc w'} (h : Between env b w) (hnext : w.outputNext b = .ok (crc, w')) : Between env b w'
  | transaction {r w w1 phases w2 w'} (h : Between env b w) (hattempts : Attempts env b r w w1)
      (hrun : World.finalPhase env b phases w1 = .ok w2) (hcommit : Committed env b w2 w') :
      Between env b w'

/-- The assertions on the way through a transaction of `n` phases that starts in `w0`, after
any attempts and wherever its phases got to: every switch out of a phase before the last
returns, and `talloc_clean` finds itself in the last phase. -/
structure AssertionsHold (env : Env) (b : Build) (n : Nat) (w0 : World) : Prop where
  switch : ∀ {r w1 phases k cs w}, Attempts env b r w0 w1 →
    World.inPhase env b phases w1 k cs = .ok w → k + 1 < n → ∃ w', w.switch env b = .ok w'
  clean : ∀ {r w1 phases k cs w}, Attempts env b r w0 w1 →
    World.inPhase env b phases w1 k cs = .ok w → k + 1 = n →
    w.sei.talloc.p + 1 = w.sei.talloc.redundancyLevel ∧
      (w.sei.talloc.SameCounts → ∃ t, w.sei.talloc.clean b = .ok t)

section Bookkeeping

variable {env : Env} {b : Build} {w0 w w' : World} {n k r : Nat} {phases : Nat → List Call}
  {cs : List Call}

/-! ## After a transaction -/

/-- When a transaction that started on clean bookkeeping is over, the bookkeeping is clean
again. The trash bin is cleared up to the largest count of the phases. -/
theorem Ended.clean (hend : Ended w w') (hready : w0.Startable b n) (hclean : w0.Clean) (hk : k < n)
    (hrun : World.inPhase env b phases w0 k cs = .ok w) {count : Nat}
    (htbin : w'.sei.tbin = w.sei.tbin.clear count)
    (hcount : ∀ p < n, w.sei.tbin.nitems p ≤ count) (hobuf_p : w'.sei.obuf.p = 0) : w'.Clean := by
  have hin := hready.inPhase hk hrun
  have hother := hready.untouched_inPhase hk hrun
  have hnitems : ∀ p, k < p → w.sei.tbin.nitems p = 0 := by
    intro p hp
    have htrashed := hready.trashed (hclean.tbin.nitems p) hk hrun
    rw [upTo_of_gt hp] at htrashed
    exact htrashed.nitems
  refine ⟨fun j => ?_, hend.talloc_p, fun j => ?_, ?_, hobuf_p⟩
  · rcases Nat.lt_or_ge j n with hlt | hge
    · exact hend.cow_of_lt j (by rwa [hin.level])
    · rw [hend.cow_of_ge j (by rwa [hin.level]), (hother j (by omega)).1]
      exact hclean.cow j
  · rw [hend.talloc_size, hin.talloc_level]
    split
    · rfl
    · rw [(hother j (by omega)).2, hclean.talloc_size]
  · rw [htbin]
    refine Tbin.clean_clear (fun p => hready.blank hclean.tbin hk hrun) (fun p hp => hnitems p ?_)
      (fun p hp => hcount p ?_)
    all_goals rw [hin.tbin_level] at hp; omega

/-- Recovery clears the trash bin up to the largest count, whatever the phases put there. -/
theorem RecoversFrom.tbin {w1 : World} (h : RecoversFrom env b w w1)
    (hrecover : w1.recover env b = .ok w') :
    w'.sei.tbin = w.sei.tbin.reset := by
  have hsame : w1.sei.tbin = w.sei.tbin := by
    rcases h with rfl | htry
    · rfl
    · obtain ⟨_, rfl, _⟩ := tryCommit_spec htry
      rfl
  simp only [recover, rollback, bind_eq_ok, pure_eq_ok, Except.ok.injEq] at hrecover
  obtain ⟨_, _, rfl⟩ := hrecover
  exact congrArg Tbin.reset hsame

theorem Attempts.clean (h : Attempts env b r w w') (hidle : w.Idle b n) (hclean : w.Clean) :
    w'.Startable b n ∧ w'.Clean := by
  induction h with
  | none w => exact ⟨hidle.startable, hclean⟩
  | @rolledBack r w w1 phases k cs w2 w3 w' h hk hrun hfrom hrecover ih =>
    obtain ⟨hready, hclean⟩ := ih hidle hclean
    rw [hready.level] at hk
    have hin := hready.inPhase hk hrun
    obtain ⟨hend, hp, hobuf⟩ := hfrom.ended (by rw [hin.level]; omega) hrecover
    refine ⟨(hready.recovered hclean.clear hk hrun hend hp hobuf).1, ?_⟩
    refine hend.clean hready hclean hk hrun (hfrom.tbin hrecover) (fun p hp => ?_) ?_
    · exact Tbin.nitems_le_maxCount (by rwa [hin.tbin_level])
    · rw [hobuf]
      rfl

theorem Startable.clean_committed (h : w0.Startable b n) (hclean : w0.Clean)
    (hrun : World.finalPhase env b phases w0 = .ok w) (hcommit : Committed env b w w') :
    w'.Idle b n ∧ w'.Clean := by
  have hn := h.two_le
  obtain ⟨hend, hp⟩ := hcommit.ended
  have hidle := (h.committed hclean.clear hrun hend hp hcommit.obuf).1
  obtain ⟨m, _, hfrees⟩ := hcommit.effects
  obtain ⟨hcounts, htbin⟩ := Tbin.flush_eq_ok hfrees
  rw [World.finalPhase, h.level] at hrun
  have hlevel := (h.inPhase (by omega) hrun).tbin_level
  refine ⟨hidle, hend.clean h hclean (by omega) hrun htbin (fun p hp => ?_) hidle.obuf_p⟩
  rcases Nat.eq_zero_or_pos p with rfl | hpos
  · exact le_refl _
  · exact le_of_eq (hcounts p hpos (by rwa [hlevel]))

/-- Taking a checksum touches the queues only. -/
theorem outputNext_frame {crc : UInt32} (h : w.outputNext b = .ok (crc, w')) :
    ∃ queue, w' = { w with sei := { w.sei with obuf := { w.sei.obuf with queue := queue } } } := by
  simp only [outputNext, Obuf.pop, bind_eq_ok, pure_eq_ok, Except.ok.injEq, Prod.mk.injEq] at h
  obtain ⟨_, _, _, _, _, _, _, ⟨_, _, _, _, _, _, queue, _, rfl⟩, _, rfl⟩ := h
  exact ⟨queue, rfl⟩

theorem Between.idle_clean (h : Between env b w) : (∃ n, w.Idle b n) ∧ w.Clean := by
  induction h with
  | init mem => exact ⟨⟨_, idle_init b mem⟩, clean_init b mem⟩
  | work h machine ibuf ih =>
    obtain ⟨⟨n, hidle⟩, hclean⟩ := ih
    exact ⟨⟨n, { hidle with }⟩, { hclean with }⟩
  | set h hn hle hset ih =>
    obtain ⟨⟨n, hidle⟩, hclean⟩ := ih
    refine ⟨⟨_, (hidle.set hclean.clear hn hle hset).1⟩, ?_⟩
    simp only [Sei.setRedundancy, bind_eq_ok, pure_eq_ok, Except.ok.injEq] at hset
    obtain ⟨_, _, _, _, rfl⟩ := hset
    exact { hclean with tbin := ⟨hclean.tbin.nitems, hclean.tbin.items⟩ }
  | next h hnext ih =>
    obtain ⟨⟨n, hidle⟩, hclean⟩ := ih
    obtain ⟨queue, rfl⟩ := outputNext_frame hnext
    exact ⟨⟨n, { hidle with }⟩, { hclean with }⟩
  | transaction h hattempts hrun hcommit ih =>
    obtain ⟨⟨n, hidle⟩, hclean⟩ := ih
    obtain ⟨hready, hclean⟩ := hattempts.clean hidle hclean
    obtain ⟨hidle, hclean⟩ := hready.clean_committed hclean hrun hcommit
    exact ⟨⟨n, hidle⟩, hclean⟩

/-! ## The next transaction -/

theorem Idle.assertionsHold (hidle : w0.Idle b n) (hclean : w0.Clean) :
    AssertionsHold env b n w0 where
  switch {r w1 phases k cs w} hattempts hrun hk := by
    have hready := (hattempts.clean hidle hclean).1
    exact (hready.inPhase (by omega) hrun).exists_switch env hk hidle.le (sized_writesOf cs)
  clean {r w1 phases k cs w} hattempts hrun hk := by
    have hready := (hattempts.clean hidle hclean).1
    have hin := hready.inPhase (by omega) hrun
    have hlast : w.sei.talloc.p + 1 = w.sei.talloc.redundancyLevel := by
      rw [hin.talloc_p, hin.talloc_level, hk]
    exact ⟨hlast, fun hsame => ⟨_, (Talloc.clean_eq_ok hlast).mpr ⟨hsame, rfl⟩⟩⟩

/-- Between transactions the bookkeeping is clean, and the next transaction, with any number
of phases, passes its assertions. -/
theorem clean_between (h : Between env b w) :
    w.Clean ∧ ∀ n, 2 ≤ n → n ≤ b.redundancy →
      ∃ s, w.sei.setRedundancy b n = .ok s ∧ AssertionsHold env b n { w with sei := s } := by
  obtain ⟨⟨m, hidle⟩, hclean⟩ := h.idle_clean
  refine ⟨hclean, fun n hn hle => ?_⟩
  obtain ⟨s, hset⟩ : ∃ s, w.sei.setRedundancy b n = .ok s := by
    rw [Sei.setRedundancy, Build.assert_of ⟨hn, hle⟩, ok_bind, Build.assert_of hidle.p, ok_bind]
    exact ⟨_, rfl⟩
  have hnext := Between.set h hn hle hset
  exact ⟨s, hset, (hidle.set hclean.clear hn hle hset).1.assertionsHold hnext.idle_clean.2⟩

/-- An attempt with four phases is interrupted in its second phase, which has allocated and
freed more than the first; the next attempt commits. A transaction with three phases
follows. -/
theorem clean_between_retried :
    ∃ w, Between Env.plain (Build.fourWay false true) w ∧ w.Clean := by
  have hinit : Between Env.plain (Build.fourWay false true) _ := .init fun _ => 1
  have hattempts := @Attempts.rolledBack Env.plain (Build.fourWay false true) 0 _ _
    (fun _ => [.malloc 8, .free 64]) 1 [.malloc 8, .malloc 8, .free 64, .free 72] _ _ _
    (.none (World.init (Build.fourWay false true) fun _ => 1)) (by decide) rfl (.inl rfl) rfl
  have hfour := @Between.transaction _ _ _ _ _ (fun _ => [.write .uint8 40 3, .malloc 8, .free 64])
    _ _ hinit hattempts rfl (.inr ⟨rfl, _, rfl, rfl⟩)
  have hthree := Between.set hfour (n := 3) (by decide) (by decide) rfl
  have hlast := @Between.transaction _ _ _ _ _ (fun _ => [.free 80]) _ _ hthree (.none _) rfl
    (.inr ⟨rfl, _, rfl, rfl⟩)
  exact ⟨_, hlast, (clean_between hlast).1⟩

end Bookkeeping

end World

end LibSei
