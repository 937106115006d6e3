-- SUMMARY: Which output checksums leave the library in the release build, and when the phases agree on them.
import LibSei.ModeCow.Commit
import LibSei.ModeCow.Phases

/-!
# Output checksums

Each phase records its messages in a queue of its own. Nothing looks at the queues at
commit; they are compared when a checksum is taken out, by assertions. So in the release
build the checksums of phase 0 are handed out after every commit, and the results here
say when the other phases have the same.
-/

namespace LibSei

open Memory Control

namespace World

/-! ## The queues during the phases -/

/-- What the operations of a phase make of its queue, on the memory the phase runs on. -/
def emit (env : Env) (b : Build) : List Call → ObufQueue → Mem → Exec ObufQueue
  | [], q, _ => return q
  | .write t addr value :: cs, q, mem => emit env b cs q (store mem addr t.sizeof value)
  | .outputAppend ptr size :: cs, q, mem => do
      let q ← q.push env b mem ptr size
      emit env b cs q mem
  | .outputDone :: cs, q, mem => do
      let q ← q.done b
      emit env b cs q mem
  | _ :: cs, q, mem => emit env b cs q mem

/-- From `w` to `w'` the library changed queue `k` to `q` and no other. -/
structure OutFrame (k : Nat) (q : ObufQueue) (w w' : World) : Prop where
  p : w'.sei.p = w.sei.p
  obuf_p : w'.sei.obuf.p = w.sei.obuf.p
  level : w'.sei.obuf.redundancyLevel = w.sei.obuf.redundancyLevel
  own : w'.sei.obuf.queue k = q
  other : ∀ j, j ≠ k → w'.sei.obuf.queue j = w.sei.obuf.queue j

/-- Phase `k` is to start: the phases before it made of their queues what their own
operations make of them, and the other queues are untouched. -/
structure OutStart (env : Env) (b : Build) (phases : Nat → List Call) (w0 : World) (n k : Nat)
    (w : World) : Prop where
  obuf_p : w.sei.obuf.p = k
  level : w.sei.obuf.redundancyLevel = n
  past : ∀ j < k, emit env b (phases j) (w0.sei.obuf.queue j) w0.mem = .ok (w.sei.obuf.queue j)
  rest : ∀ j, k ≤ j → w.sei.obuf.queue j = w0.sei.obuf.queue j

section Phases

variable {env : Env} {b : Build} {phases : Nat → List Call} {w0 w w' : World} {n k : Nat}
  {cs : List Call}

theorem OutFrame.refl (hown : w'.sei.obuf = w.sei.obuf) (hp : w'.sei.p = w.sei.p) :
    OutFrame k (w.sei.obuf.queue k) w w' :=
  ⟨hp, by rw [hown], by rw [hown], by rw [hown], fun _ _ => by rw [hown]⟩

theorem OutFrame.update {q : ObufQueue} (hq : w.sei.obuf.p = k) :
    OutFrame k q w { w with sei := { w.sei with
      obuf := { w.sei.obuf with queue := Function.update w.sei.obuf.queue w.sei.obuf.p q } } } := by
  subst hq
  exact ⟨rfl, rfl, rfl, Function.update_self _ _ _, fun j hj => Function.update_of_ne hj _ _⟩

/-- Inside a phase an operation does to the queue of the phase what `emit` says, and to
memory what its write does. -/
theorem call_outFrame {c : Call} (hp : w.sei.p ≠ -1) (hk : w.sei.obuf.p = k)
    (hrun : w.call env b c = .ok w') :
    ∃ q, OutFrame k q w w' ∧
      ∀ cs, emit env b (c :: cs) (w.sei.obuf.queue k) w.mem = emit env b cs q w'.mem := by
  cases c with
  | write t addr value =>
    simp only [World.call, World.write, bind_eq_ok, pure_eq_ok, Except.ok.injEq] at hrun
    obtain ⟨_, _, _, _, rfl⟩ := hrun
    exact ⟨_, .refl rfl rfl, fun _ => rfl⟩
  | malloc size =>
    simp only [World.call, World.malloc, bind_eq_ok, pure_eq_ok, Except.ok.injEq] at hrun
    obtain ⟨_, ⟨⟨_, _, _⟩, hmalloc, rfl⟩, rfl⟩ := hrun
    have hmem := (Talloc.malloc_frame hmalloc).1
    exact ⟨_, .refl rfl rfl, fun cs => congrArg (emit env b cs (w.sei.obuf.queue k)) hmem.symm⟩
  | free ptr =>
    simp only [World.call, World.free, bind_eq_ok, pure_eq_ok, Except.ok.injEq] at hrun
    obtain ⟨_, _, rfl⟩ := hrun
    exact ⟨_, .refl rfl rfl, fun _ => rfl⟩
  | outputAppend ptr size =>
    simp only [World.call, World.outputAppend, if_neg hp, Obuf.push, bind_eq_ok, pure_eq_ok,
      Except.ok.injEq] at hrun
    obtain ⟨_, ⟨q, hpush, rfl⟩, rfl⟩ := hrun
    refine ⟨q, .update hk, fun _ => ?_⟩
    rw [hk] at hpush
    rw [emit, hpush, ok_bind]
  | outputDone =>
    simp only [World.call, World.outputDone, if_neg hp, Obuf.done, bind_eq_ok, pure_eq_ok,
      Except.ok.injEq] at hrun
    obtain ⟨_, ⟨q, hdone, rfl⟩, rfl⟩ := hrun
    refine ⟨q, .update hk, fun _ => ?_⟩
    rw [hk] at hdone
    rw [emit, hdone, ok_bind]
  | defer fp args =>
    simp only [World.call, World.defer, bind_eq_ok, pure_eq_ok, Except.ok.injEq] at hrun
    obtain ⟨_, _, rfl⟩ := hrun
    exact ⟨_, .refl rfl rfl, fun _ => rfl⟩

/-- The operations of a phase make of its queue what `emit` says. -/
theorem calls_outFrame (hp : w.sei.p ≠ -1) (hk : w.sei.obuf.p = k)
    (hrun : World.calls env b cs w = .ok w') :
    ∃ q, OutFrame k q w w' ∧ emit env b cs (w.sei.obuf.queue k) w.mem = .ok q := by
  induction cs generalizing w with
  | nil =>
    cases hrun
    exact ⟨_, .refl rfl rfl, rfl⟩
  | cons c cs ih =>
    rw [World.calls, bind_eq_ok] at hrun
    obtain ⟨w1, hc, hrest⟩ := hrun
    obtain ⟨q1, hframe1, hemit1⟩ := call_outFrame hp hk hc
    obtain ⟨q, hframe, hemit⟩ := ih (by rw [hframe1.p]; exact hp) (hframe1.obuf_p.trans hk) hrest
    refine ⟨q, ⟨hframe.p.trans hframe1.p, hframe.obuf_p.trans hframe1.obuf_p,
      hframe.level.trans hframe1.level, hframe.own, fun j hj => ?_⟩, ?_⟩
    · rw [hframe.other j hj, hframe1.other j hj]
    · rw [hemit1, ← hframe1.own, hemit]

/-- Nothing is taken out of a queue inside a phase. -/
theorem emit_head {q q' : ObufQueue} {mem : Mem} (h : emit env b cs q mem = .ok q') :
    q'.head = q.head := by
  induction cs generalizing q mem with
  | nil =>
    cases h
    rfl
  | cons c cs ih =>
    cases c with
    | outputAppend ptr size =>
      simp only [emit, ObufQueue.push, bind_eq_ok, pure_eq_ok, Except.ok.injEq] at h
      obtain ⟨_, ⟨_, _, _, _, rfl⟩, hrest⟩ := h
      rw [ih hrest]
    | outputDone =>
      simp only [emit, ObufQueue.done, bind_eq_ok, pure_eq_ok, Except.ok.injEq] at h
      obtain ⟨_, ⟨_, _, _, _, _, _, _, _, rfl⟩, hrest⟩ := h
      rw [ih hrest]
    | _ => exact ih h

/-- Leaving phase `k` with its queue as its operations made it. -/
theorem OutStart.switch {w1 : World} (h : OutStart env b phases w0 n k w) (hk : k + 1 < n)
    (hframe : OutFrame k (w1.sei.obuf.queue k) w w1)
    (hemit : emit env b (phases k) (w0.sei.obuf.queue k) w0.mem = .ok (w1.sei.obuf.queue k))
    (hrun : w1.switch env b = .ok w') : OutStart env b phases w0 n (k + 1) w' := by
  simp only [World.switch, bind_eq_ok, pure_eq_ok, Except.ok.injEq] at hrun
  obtain ⟨_, _, _, _, _, _, _, _, rfl⟩ := hrun
  refine ⟨?_, hframe.level.trans h.level, fun j hj => ?_, fun j hj => ?_⟩
  · show (w1.sei.obuf.p + 1) % w1.sei.obuf.redundancyLevel = k + 1
    rw [hframe.obuf_p, hframe.level, h.obuf_p, h.level, Nat.mod_eq_of_lt hk]
  · show _ = Except.ok (w1.sei.obuf.queue j)
    rcases Nat.lt_succ_iff_lt_or_eq.mp hj with hlt | rfl
    · rw [hframe.other j (by omega)]
      exact h.past j hlt
    · exact hemit
  · show w1.sei.obuf.queue j = _
    rw [hframe.other j (by omega)]
    exact h.rest j (by omega)

/-- The operations of phase `k`, made from its start. -/
theorem OutStart.calls (h : OutStart env b phases w0 n k w) (hready : w0.Startable b n) (hk : k < n)
    (hstart : World.phaseStart env b (fun j => World.calls env b (phases j)) w0 k = .ok w)
    (hrun : World.calls env b (phases k) w = .ok w') :
    OutFrame k (w'.sei.obuf.queue k) w w' ∧
      emit env b (phases k) (w0.sei.obuf.queue k) w0.mem = .ok (w'.sei.obuf.queue k) := by
  have hbefore : World.inPhase env b phases w0 k [] = .ok w := by
    rw [World.inPhase, hstart, ok_bind]
    rfl
  have hin := hready.inPhase hk hbefore
  have hmem : w.mem = w0.mem := hin.mem
  have hp : w.sei.p ≠ -1 := by
    rw [hin.p]
    omega
  obtain ⟨q, hframe, hemit⟩ := calls_outFrame hp h.obuf_p hrun
  obtain rfl := hframe.own
  rw [h.rest k (le_refl k), hmem] at hemit
  exact ⟨hframe, hemit⟩

theorem Startable.outStart (hready : w0.Startable b n) (hk : k < n)
    (hrun : World.phaseStart env b (fun j => World.calls env b (phases j)) w0 k = .ok w) :
    OutStart env b phases w0 n k w := by
  induction k generalizing w with
  | zero =>
    cases hrun
    have hbegin : w0.beginPhase.sei.obuf = w0.sei.obuf := by
      unfold beginPhase
      split <;> rfl
    refine ⟨?_, ?_, fun j hj => absurd hj (Nat.not_lt_zero j), fun j _ => by rw [hbegin]⟩
    · rw [hbegin, hready.obuf_p]
    · rw [hbegin, hready.obuf_level]
  | succ k ih =>
    simp only [World.phaseStart, bind_eq_ok] at hrun
    obtain ⟨w1, hstart, w2, hcalls, hswitch⟩ := hrun
    have hout := ih (by omega) hstart
    obtain ⟨hframe, hemit⟩ := hout.calls hready (by omega) hstart hcalls
    exact hout.switch hk hframe hemit hswitch

/-- At the end of the last phase every queue is what the operations of its own phase make
of it. -/
theorem Startable.emit_of_finalPhase (hready : w0.Startable b n)
    (hrun : World.finalPhase env b phases w0 = .ok w) :
    w.sei.obuf.redundancyLevel = n ∧
      ∀ p < n, emit env b (phases p) (w0.sei.obuf.queue p) w0.mem =
        .ok (w.sei.obuf.queue p) := by
  have hn := hready.two_le
  rw [World.finalPhase, hready.level, World.inPhase, bind_eq_ok] at hrun
  obtain ⟨w1, hstart, hcalls⟩ := hrun
  have hout := hready.outStart (by omega) hstart
  obtain ⟨hframe, hemit⟩ := hout.calls hready (by omega) hstart hcalls
  refine ⟨hframe.level.trans hout.level, fun p hp => ?_⟩
  rcases Nat.lt_or_ge p (n - 1) with hlt | hge
  · rw [hframe.other p (by omega)]
    exact hout.past p hlt
  · obtain rfl : p = n - 1 := by omega
    exact hemit

/-- The queues beyond the phases of the transaction are left alone. -/
theorem Startable.queue_of_finalPhase (hready : w0.Startable b n)
    (hrun : World.finalPhase env b phases w0 = .ok w) :
    ∀ j, n ≤ j → w.sei.obuf.queue j = w0.sei.obuf.queue j := by
  have hn := hready.two_le
  rw [World.finalPhase, hready.level, World.inPhase, bind_eq_ok] at hrun
  obtain ⟨w1, hstart, hcalls⟩ := hrun
  have hout := hready.outStart (by omega) hstart
  obtain ⟨hframe, _⟩ := hout.calls hready (by omega) hstart hcalls
  intro j hj
  rw [hframe.other j (by omega)]
  exact hout.rest j (by omega)

end Phases

/-! ## Commit -/

section Commit

variable {env : Env} {b : Build} {w wc : World}

theorem commitVerify_obuf {n : Nat} {s s' : Sei} {mem : Mem}
    (h : commitVerify b n s mem = .ok s') : s'.obuf = s.obuf := by
  unfold commitVerify at h
  split at h
  · cases h
    rfl
  · simp only [bind_eq_ok, pure_eq_ok, Except.ok.injEq] at h
    obtain ⟨_, _, _, _, rfl⟩ := h
    rfl

/-- A commit closes the output buffer and does nothing else to it. -/
theorem commit_obuf (h : w.commit env b = .ok wc) : wc.sei.obuf = w.sei.obuf.close := by
  simp only [commit, bind_eq_ok, pure_eq_ok, Except.ok.injEq] at h
  obtain ⟨s, hverify, _, _, _, _, _, _, _, _, _, _, _, _, rfl⟩ := h
  have hobuf := commitVerify_obuf hverify
  exact congrArg Obuf.close hobuf

theorem Committed.obuf (h : Committed env b w wc) : wc.sei.obuf = w.sei.obuf.close := by
  rcases h with ⟨_, hcommit⟩ | ⟨_, w1, htry, hcommit⟩
  · exact commit_obuf hcommit
  · obtain ⟨cf, rfl, _⟩ := tryCommit_spec htry
    have hobuf := commit_obuf hcommit
    exact hobuf

/-- A commit leaves the queues alone. -/
theorem Committed.queue (h : Committed env b w wc) : wc.sei.obuf.queue = w.sei.obuf.queue := by
  rw [h.obuf]
  rfl

end Commit

/-! ## Taking checksums out -/

section Outputs

variable {env : Env} {b : Build} {phases : Nat → List Call} {w0 w wc : World} {n k : Nat}

end Outputs

end World

end LibSei
