-- SUMMARY: An attempt to commit leaves all that it verifies as it was and every log rewound, at whichever check it stops.
import LibSei.Abuf.Cursors
import LibSei.Tmi.Transaction

/-!
# Attempts to commit

After `sei_try_commit` either `sei_commit` or `sei_rollback` works on the logs, the second from
their beginning. Neither may find traces of the attempt, whichever check it stopped at.
-/

namespace LibSei

open Memory Control

namespace World

namespace Cursors

/-- The comparison of the logs in `sei_try_commit`, with the assignments to their counters. -/
def compareLogs (b : Build) (w : World) : Exec (Bool × (Nat → Abuf)) :=
  let n := w.sei.redundancyLevel
  tryCompareBy (Abuf.Cursors.tryCmpHeap b) b n (rewindAll n w.sei.cow) w.mem

/-- `sei_try_commit`, with the assignments to the counters of the logs. -/
def tryCommit (env : Env) (b : Build) (w : World) : Exec (Bool × World) :=
  tryCommitBy (tryCompareBy (Abuf.Cursors.tryCmpHeap b) b) env b w

section TryCommit

variable {env : Env} {b : Build} {w : World}

theorem tryCompareBy_eq : tryCompareBy (Abuf.Cursors.tryCmpHeap b) b = tryCompare b := by
  have hcmp : Abuf.Cursors.tryCmpHeap b = Abuf.tryCmpHeap b := by
    funext a1 a2 mem
    exact Abuf.Cursors.tryCmpHeap_eq
  rw [tryCompare, hcmp]

theorem compareLogs_eq : compareLogs b w =
    tryCompare b w.sei.redundancyLevel (rewindAll w.sei.redundancyLevel w.sei.cow) w.mem := by
  rw [compareLogs, tryCompareBy_eq]

theorem tryCommit_eq : tryCommit env b w = w.tryCommit env b := by
  rw [tryCommit, tryCompareBy_eq, World.tryCommit]

end TryCommit

end Cursors

/-- What is verified is the same in `w'` as in `w`; the counters for reading the logs are not part
of it. -/
structure SameVerified (w w' : World) : Prop where
  machine : w'.machine = w.machine
  buf : ∀ i, (w'.sei.cow i).buf = (w.sei.cow i).buf
  pushed : ∀ i, (w'.sei.cow i).pushed = (w.sei.cow i).pushed
  tbin : w'.sei.tbin = w.sei.tbin
  talloc : w'.sei.talloc = w.sei.talloc
  wts : w'.sei.wts = w.sei.wts
  obuf : w'.sei.obuf = w.sei.obuf
  ibuf : w'.sei.ibuf = w.sei.ibuf

theorem rewindAll_rewindAll (n : Nat) (cow : Nat → Abuf) :
    rewindAll n (rewindAll n cow) = rewindAll n cow := by
  funext i
  simp only [rewindAll]
  split <;> rfl

theorem rewindAll_buf (n : Nat) (cow : Nat → Abuf) (i : Nat) :
    (rewindAll n cow i).buf = (cow i).buf ∧ (rewindAll n cow i).pushed = (cow i).pushed := by
  rw [rewindAll]
  split <;> exact ⟨rfl, rfl⟩

/-- In any state of a transaction, whatever `sei_try_commit` returns: what it verifies is as
before, the logs of all phases of the build are rewound, and another comparison of the logs comes
to the same result. -/
theorem tryCommit_leaves {n rbp : Nat} {env : Env} {b : Build} {t0 t : Tmi} {r : Bool} {w' : World}
    (hbetween : t0.Between b n) (h : Tmi.InTransaction env b rbp t0 t)
    (htry : Cursors.tryCommit env b t.world = .ok (r, w')) :
    SameVerified t.world w' ∧ (∀ i < b.redundancy, (w'.sei.cow i).poped = 0) ∧
      (Prod.fst <$> Cursors.compareLogs b w') = (Prod.fst <$> Cursors.compareLogs b t.world) := by
  rw [Cursors.tryCommit_eq] at htry
  have hwithin := h.within hbetween
  have hlevel : t.world.sei.redundancyLevel = n := hwithin.level
  obtain ⟨cf, rfl, _⟩ := tryCommit_spec htry
  refine ⟨?_, fun i hi => ?_, ?_⟩
  · exact {
      machine := rfl
      buf := fun i => (rewindAll_buf _ _ i).1
      pushed := fun i => (rewindAll_buf _ _ i).2
      tbin := rfl
      talloc := rfl
      wts := rfl
      obuf := rfl
      ibuf := rfl }
  · -- the logs beyond the phases of the transaction are as between transactions
    show (rewindAll t.world.sei.redundancyLevel t.world.sei.cow i).poped = 0
    rw [hlevel, rewindAll]
    split
    · rfl
    · next hge =>
      have hsame : t.world.sei.cow i = t0.sei.cow i := hwithin.cow i (Nat.not_lt.mp hge)
      rw [hsame]
      exact (hbetween.clear.cow i hi).poped
  · rw [Cursors.compareLogs_eq, Cursors.compareLogs_eq]
    show Prod.fst <$> tryCompare b _ (rewindAll _ (rewindAll _ _)) _ = _
    rw [rewindAll_rewindAll]

/-- The phases wrote different values: the attempt stops at the conflict, after it has walked
through both logs. -/
theorem tryCommit_leaves_conflict :
    ∃ t w', Tmi.InTransaction Env.plain (Build.twoWay false true) 0
        (Tmi.init (Build.twoWay false true) fun _ => 0) t ∧
      t.sei.p = 1 ∧ (t.sei.cow 0).pushed = 1 ∧
      Cursors.tryCommit Env.plain (Build.twoWay false true) t.world = .ok (false, w') ∧
      SameVerified t.world w' ∧ (∀ i < 2, (w'.sei.cow i).poped = 0) ∧
      (Prod.fst <$> Cursors.compareLogs (Build.twoWay false true) w') =
        (Prod.fst <$> Cursors.compareLogs (Build.twoWay false true) t.world) := by
  obtain ⟨t, w', hreach, hp, hpushed, htry⟩ : ∃ t w',
      Tmi.InTransaction Env.plain (Build.twoWay false true) 0
        (Tmi.init (Build.twoWay false true) fun _ => 0) t ∧
      t.sei.p = 1 ∧ (t.sei.cow 0).pushed = 1 ∧
      Cursors.tryCommit Env.plain (Build.twoWay false true) t.world = .ok (false, w') := by
    have hbegin : Tmi.InTransaction Env.plain (Build.twoWay false true) 0
        (Tmi.init (Build.twoWay false true) fun _ => 0) _ := .begin
    have hphase0 := hbegin.op (o := .write 0 .uint8 64 1) rfl
    have hswitch := hphase0.commit rfl (by decide)
    exact ⟨_, _, hswitch.op (o := .write 0 .uint8 64 2) rfl, rfl, rfl, rfl⟩
  exact ⟨t, w', hreach, hp, hpushed, htry,
    tryCommit_leaves (Tmi.between_init (Build.twoWay false true) fun _ => 0) hreach htry⟩

end World

end LibSei
