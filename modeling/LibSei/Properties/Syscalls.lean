-- SUMMARY: How often wrapped system calls take effect, for every number of phases in every build.
import LibSei.Tmi.Separation
import LibSei.Tmi.Transaction

/-!
# System calls take effect once

The wrappers of the system calls know two phases: the first, which makes or puts aside a
call, and the second, which reads its result back or puts it aside again. The waitress
compares what was put aside over all phases of the build. With assertions the callbacks of a
flush compare the result of a call with the one the handler was promised. The results here follow
the calls of a transaction through all its phases, whatever else the phases do, and say for
which numbers of phases every call takes effect once.
-/

namespace LibSei

open Memory Control

/-! ## The calls of all phases -/

/-- After phase `k` of phases that all make the calls `cs`; `made` are the underlying functions
called before the transaction, and `xs` are the calls of phase 0 with their results. -/
structure SysAfter (b : Build) (made cs : List SysCall) (xs : List (SysCall × Int32)) (k : Nat)
    (s : SysState) : Prop where
  calls : s.calls = made ++ immediate cs ++ (List.replicate (k - 1) cs).flatten
  room : cs.length < s.wts.maxItems
  results : k = 0 → s.abufSc.Results .uint32 (resultLog xs) 0
  queued : ∀ p ≤ k, p < 2 → s.wts.Queued p ((putAside cs).map SysCall.item)
  unqueued : ∀ p < b.redundancy, k < p ∨ 2 ≤ p → s.wts.Queued p []

/-- Before phase `k` of a transaction that began in the state `s0`. -/
def SysBefore (b : Build) (s0 : SysState) (cs : List SysCall) (xs : List (SysCall × Int32)) :
    Nat → SysState → Prop
  | 0, s => s = s0
  | k + 1, s => SysAfter b s0.calls cs xs k s

/-- What the handler is given in phase `k`. -/
def repliesIn (xss : Nat → List (SysCall × Int32)) : Nat → List Int32
  | 0 => replies (xss 0)
  | 1 => replies (xss 0)
  | k + 2 => (xss (k + 2)).map Prod.snd

section SysAfter

variable {b : Build} {k : Nat} {made cs : List SysCall} {xs ys : List (SysCall × Int32)}
  {s : SysState}

theorem SysState.sysAfter_first (hxs : xs.map Prod.fst = cs) (hsc : s.abufSc.Empty)
    (hwts : ∀ p < b.redundancy, s.wts.nitems p = 0) (hroom : cs.length < s.wts.maxItems) :
    ∃ s', s.run b 0 xs = .ok (replies xs, s') ∧ SysAfter b s.calls cs xs 0 s' := by
  have htwo := b.two_le
  have hempty : ∀ p < b.redundancy, s.wts.Queued p [] := fun p hp => Wts.queued_nil (hwts p hp)
  have hlength : 0 + xs.length + 1 ≤ s.wts.maxItems := by
    rw [← hxs, List.length_map] at hroom
    omega
  obtain ⟨s', hrun, hsc', hqueued, hmax, hother, hcalls⟩ := SysState.run_firstPhase (b := b)
    hsc.results (hempty 0 (by omega)) hlength
  rw [hxs] at hqueued hcalls
  refine ⟨s', hrun, by simpa using hcalls, hmax ▸ hroom, fun _ => hsc', fun p hp _ => ?_,
    fun p hp hlt => hother p [] (by omega) (hempty p hp)⟩
  obtain rfl : p = 0 := by omega
  exact hqueued

theorem SysAfter.second (h : SysAfter b made cs xs 0 s) (hxs : xs.map Prod.fst = cs)
    (hys : ys.map Prod.fst = cs) :
    ∃ s', s.run b 1 ys = .ok (replies xs, s') ∧ SysAfter b made cs xs 1 s' := by
  have hlength : 0 + xs.length + 1 ≤ s.wts.maxItems := by
    have hroom := h.room
    rw [← hxs, List.length_map] at hroom
    omega
  obtain ⟨s', hrun, hqueued, hmax, hother, hcalls⟩ := SysState.run_secondPhase (b := b) (l := [])
    (hys.trans hxs.symm) (h.results rfl) rfl (h.unqueued 1 b.two_le (.inl Nat.one_pos)) hlength
  rw [hxs] at hqueued
  refine ⟨s', hrun, hcalls.trans h.calls, hmax ▸ h.room, fun hk => absurd hk Nat.one_ne_zero,
    fun p hp _ => ?_, fun p hp hlt => hother p [] (by omega) (h.unqueued p hp (.inl (by omega)))⟩
  rcases Nat.eq_or_lt_of_le hp with rfl | hlt
  · exact hqueued
  · exact hother p _ (by omega) (h.queued p (by omega) (by omega))

theorem SysAfter.later (h : SysAfter b made cs xs (k + 1) s) (hys : ys.map Prod.fst = cs) :
    ∃ s', s.run b (k + 2 : Nat) ys = .ok (ys.map Prod.snd, s') ∧
      SysAfter b made cs xs (k + 2) s' := by
  refine ⟨_, SysState.run_laterPhase (by omega), ?_, h.room, fun hk => absurd hk (by omega),
    fun p _ hp => h.queued p (by omega) hp, fun p hp hlt => h.unqueued p hp (by omega)⟩
  rw [hys, h.calls, List.append_assoc]
  show _ = _ ++ (List.replicate (k + 1) cs).flatten
  rw [List.replicate_succ', List.flatten_append, List.flatten_singleton]
  rfl

/-- Where nothing is put aside, or the build has two phases, the queues of all phases are alike. -/
theorem SysAfter.queued_all (h : SysAfter b made cs xs k s) (hk : 1 ≤ k)
    (hdeferred : putAside cs = [] ∨ b.redundancy = 2) :
    ∀ p < b.redundancy, s.wts.Queued p ((putAside cs).map SysCall.item) := by
  intro p hp
  rcases Nat.lt_or_ge p 2 with hlt | hge
  · exact h.queued p (by omega) hlt
  · obtain hnil | hb := hdeferred
    · rw [hnil]
      exact h.unqueued p hp (.inr hge)
    · omega

/-- With two phases, or without calls, every phase is given what phase 0 was given. -/
theorem repliesIn_eq_replies {xss : Nat → List (SysCall × Int32)} {n : Nat}
    (hsame : ∀ k < n, (xss k).map Prod.fst = cs) (h : cs = [] ∨ n = 2) (hk : k < n) :
    repliesIn xss k = replies (xss 0) := by
  match k with
  | 0 => rfl
  | 1 => rfl
  | k + 2 =>
    rcases h with rfl | rfl
    · have hzero := List.map_eq_nil_iff.mp (hsame 0 (by omega))
      rw [repliesIn, List.map_eq_nil_iff.mp (hsame (k + 2) hk), hzero]
      rfl
    · omega

end SysAfter

/-! ## Transactions -/

/-- The wrapped calls `cs` of a transaction of `n` phases, which begins in `t0`, take effect
exactly once: those with a result in phase 0, and the others when what was put aside is
flushed. `t` is the state at the end of the last phase, and `rss` is what the operations of
the phases returned. -/
structure TakeEffectOnce (env : Env) (b : Build) (rbp n : Nat) (os : Nat → List Op) (t0 : Tmi)
    (cs : List SysCall) (rss : List (List (Option Int32))) (t : Tmi) : Prop where
  made : ∀ k < n, ∃ rss1 t1, Tmi.phases env b rbp os t0 k = .ok (rss1, t1) ∧
    t1.sysCalls = t0.sysCalls ++ immediate cs
  replayed : ∀ k < n, ∃ rs, rss[k]? = some rs ∧
    (sysPart env b).replies (os k) rs = replies ((sysPart env b).of (os 0))
  accepted : t.sei.wts.canFlush b = .ok true
  flushed : ∃ wts m es, t.sei.wts.flushWith (runCallback env b) b t.machine = .ok (wts, m) ∧
    m.trace = t.machine.trace ++ es ∧ es.map Effect.sysCall? = (putAside cs).map some ∧
    ∀ p < b.redundancy, wts.nitems p = 0

section Flush

variable {b : Build} {cs : List SysCall} {w : Wts}

/-- Flushing makes the calls that were put aside, once and in order. -/
theorem Wts.flush_of_queued (h : ∀ p < b.redundancy, w.Queued p ((putAside cs).map SysCall.item))
    (m : Machine) :
    w.canFlush b = .ok true ∧
    ∃ wts m' es, w.flush b m = .ok (wts, m') ∧ m'.trace = m.trace ++ es ∧
      es.map Effect.sysCall? = (putAside cs).map some ∧ ∀ p < b.redundancy, wts.nitems p = 0 := by
  have hdeferred : ∀ c ∈ putAside cs, c.key? = none := fun c hc =>
    Option.isNone_iff_eq_none.mp (List.mem_filter.mp hc).2
  have hzero := h 0 (Nat.lt_of_lt_of_le (by decide) b.two_le)
  have hcan : w.canFlush b = .ok true := by
    refine Wts.canFlush_of_queued (fun d hd => ?_) h
    obtain ⟨c, hc, rfl⟩ := List.mem_map.mp hd
    exact (SysCall.item_wf (hdeferred c hc)).1
  refine ⟨hcan, _, _, ((putAside cs).map SysCall.item).map fun d => .called d.1 d.2,
    Wts.flush_of_canFlush hcan, ?_, ?_, fun p hp => if_pos hp⟩
  · rw [Wts.callItems_of_queued hzero (le_of_eq hzero.nitems), hzero.nitems, List.take_length]
  · rw [List.map_map, List.map_map]
    exact List.map_congr_left fun c hc => SysCall.callback_item (hdeferred c hc)

/-- What is put aside in phase 0 is accepted only if all phases of the build did so. -/
theorem putAside_eq_nil_of_canFlush (hcan : w.canFlush b = .ok true)
    (hzero : w.Queued 0 ((putAside cs).map SysCall.item)) (htwo : w.Queued 2 [])
    (hb : 2 < b.redundancy) : putAside cs = [] := by
  have hcount := Wts.nitems_of_canFlush hcan (by decide) hb
  rw [htwo.nitems, hzero.nitems, List.length_map] at hcount
  exact List.length_eq_zero_iff.mp hcount.symm

theorem putAside_eq_nil_iff : putAside cs = [] ↔ ∀ c ∈ cs, c.key?.isSome := by
  simp [putAside, List.filter_eq_nil_iff, Option.isSome_iff_ne_none]

end Flush

section Once

variable {env : Env} {b : Build} {rbp n : Nat} {os : Nat → List Op} {t0 t' : Tmi}
  {cs : List SysCall} {rss0 : List (List (Option Int32))}

/-- A transaction that runs through without its wrapped calls runs through with them. -/
theorem Tmi.phases_sys (hbetween : t0.Between b n) (hmax : t0.sei.wts.maxItems = scMaxCalls)
    (hcs : cs.length < scMaxCalls)
    (hsame : ∀ k < n, ((sysPart env b).of (os k)).map Prod.fst = cs) {k : Nat} (hk : k < n)
    (hrun : Tmi.phases env b rbp (fun k => (sysPart env b).without (os k)) t0 k = .ok (rss0, t')) :
    ∃ rss t, Tmi.phases env b rbp os t0 k = .ok (rss, t) ∧
      SysAfter b t0.sysCalls cs ((sysPart env b).of (os 0)) k t.sys ∧
      ∀ j ≤ k, ∃ rs, rss[j]? = some rs ∧
        (sysPart env b).replies (os j) rs = repliesIn (fun i => (sysPart env b).of (os i)) j := by
  obtain ⟨rss, s, hphases, hafter, _, hreplies⟩ := Part.phases_set (P := sysPart env b)
    (I := SysBefore b t0.sys cs ((sysPart env b).of (os 0)))
    (J := SysAfter b t0.sysCalls cs ((sysPart env b).of (os 0)))
    (Q := repliesIn fun i => (sysPart env b).of (os i)) hbetween.idle.p hbetween.idle.level hk rfl
    (fun j hj s hs => by
      have hys := hsame j (by omega)
      cases j with
      | zero =>
        obtain rfl : s = t0.sys := hs
        exact SysState.sysAfter_first hys hbetween.abufSc hbetween.wts (hmax ▸ hcs)
      | succ j =>
        cases j with
        | zero => exact SysAfter.second hs (hsame 0 (by omega)) hys
        | succ j => exact SysAfter.later hs hys)
    (fun j _ s hs => hs) hrun
  exact ⟨rss, t'.setSys s, hphases, hafter, hreplies⟩

/-- A handler makes the same wrapped calls in all its phases and otherwise anything that
runs through. Then it runs through with these calls, and they take effect exactly once in
two cases only: there are none, or there are two phases, and nothing is put aside or the build
has no more phases and, with assertions, the calls put aside return what was promised. -/
theorem takeEffectOnce_iff (hbetween : t0.Between b n) (hmax : t0.sei.wts.maxItems = scMaxCalls)
    (hcs : cs.length < scMaxCalls)
    (hsame : ∀ k < n, ((sysPart env b).of (os k)).map Prod.fst = cs)
    (hrun : Tmi.phases env b rbp (fun k => (sysPart env b).without (os k)) t0 (n - 1) =
      .ok (rss0, t')) :
    ∃ rss t, Tmi.phases env b rbp os t0 (n - 1) = .ok (rss, t) ∧
      (TakeEffectOnce env b rbp n os t0 cs rss t ↔
        cs = [] ∨ n = 2 ∧ ((∀ c ∈ cs, c.key?.isSome) ∨ b.redundancy = 2 ∧
          (b.ndebug = true ∨
            Wts.AllAnswered env t.machine.trace ((putAside cs).map SysCall.item)))) := by
  have hn : 2 ≤ n := hbetween.idle.two_le
  have hle : n ≤ b.redundancy := hbetween.idle.le
  obtain ⟨rss, t, hphases, hafter, hreplies⟩ := Tmi.phases_sys hbetween hmax hcs hsame
    (show n - 1 < n by omega) hrun
  have hzero : t.sei.wts.Queued 0 ((putAside cs).map SysCall.item) :=
    hafter.queued 0 (by omega) (by omega)
  refine ⟨rss, t, hphases, fun h => ?_, fun h => ?_⟩
  · obtain ⟨rss1, t1, hphases1, hmade⟩ := h.made (n - 1) (by omega)
    rw [hphases] at hphases1
    cases hphases1
    have hcalls : t.sysCalls = _ := hafter.calls
    rw [hcalls, List.append_right_eq_self, List.flatten_eq_nil_iff] at hmade
    rcases Nat.eq_or_lt_of_le hn with rfl | hlt
    · refine .inr ⟨rfl, ?_⟩
      rcases Nat.eq_or_lt_of_le hle with heq | hlt
      · obtain ⟨wts, m, es, hflush, _⟩ := h.flushed
        have hanswered := (Wts.flushWith_runCallback_eq_ok.mp hflush).1
        rw [Wts.answered_iff_of_queued hzero] at hanswered
        exact .inr ⟨heq.symm, hanswered⟩
      · have hnil := putAside_eq_nil_of_canFlush h.accepted hzero
          (hafter.unqueued 2 hlt (.inr (le_refl 2))) hlt
        exact .inl (putAside_eq_nil_iff.mp hnil)
    · exact .inl (hmade cs (List.mem_replicate.mpr ⟨by omega, rfl⟩))
  · have hrepeat : ∀ k < n, (List.replicate (k - 1) cs).flatten = [] := by
      intro k hk
      rcases h with rfl | ⟨rfl, _⟩
      · simp
      · rw [show k - 1 = 0 by omega]
        rfl
    have hdeferred : putAside cs = [] ∨ b.redundancy = 2 ∧ (b.ndebug = true ∨
        Wts.AllAnswered env t.machine.trace ((putAside cs).map SysCall.item)) := by
      rcases h with rfl | ⟨_, hall | hb⟩
      · exact .inl rfl
      · exact .inl (putAside_eq_nil_iff.mpr hall)
      · exact .inr hb
    have hqueued := hafter.queued_all (by omega) (hdeferred.imp_right And.left)
    have hanswered : b.ndebug = true ∨ t.sei.wts.Answered env t.machine := by
      rw [Wts.answered_iff_of_queued hzero]
      obtain hnil | ⟨_, hanswered⟩ := hdeferred
      · rw [hnil]
        exact .inr fun _ hi => absurd hi (Nat.not_lt_zero _)
      · exact hanswered
    obtain ⟨hcan, wts, m, es, hflush, heffects⟩ := Wts.flush_of_queued hqueued t.machine
    refine ⟨fun k hk => ?_, fun k hk => ?_, hcan,
      wts, m, es, Wts.flushWith_runCallback_eq_ok.mpr ⟨hanswered, hflush⟩, heffects⟩
    · obtain ⟨_, _, hwithout⟩ := Tmi.exists_phases_of_le (show k ≤ n - 1 by omega) hrun
      obtain ⟨rss1, t1, hphases1, hafter1, _⟩ := Tmi.phases_sys hbetween hmax hcs hsame hk hwithout
      have hcalls := hafter1.calls
      rw [hrepeat k hk, List.append_nil] at hcalls
      exact ⟨rss1, t1, hphases1, hcalls⟩
    · rw [← repliesIn_eq_replies hsame (h.imp_right And.left) hk]
      exact hreplies k (by omega)

/-- A phase that opens a socket and sends ten bytes on it. -/
def openAndSend : List Op := [.sys (.socket 2 1 0) 5, .sys (.send 5 64 10 0) 10]

/-- Two phases in a build for two with assertions: the socket is opened in phase 0, and the flush
sends all ten bytes. -/
theorem takeEffectOnce_openAndSend :
    ∃ rss t, Tmi.phases Env.plain (Build.twoWay false false) 0 (fun _ => openAndSend)
        (Tmi.init (Build.twoWay false false) fun _ => 0) 1 = .ok (rss, t) ∧
      TakeEffectOnce Env.plain (Build.twoWay false false) 0 2 (fun _ => openAndSend)
        (Tmi.init (Build.twoWay false false) fun _ => 0) [.socket 2 1 0, .send 5 64 10 0] rss t := by
  obtain ⟨rss0, t', hrun⟩ : ∃ rss0 t', Tmi.phases Env.plain (Build.twoWay false false) 0
      (fun _ => (sysPart Env.plain (Build.twoWay false false)).without openAndSend)
      (Tmi.init (Build.twoWay false false) fun _ => 0) 1 = .ok (rss0, t') := ⟨_, _, rfl⟩
  obtain ⟨rss, t, hphases, hiff⟩ := takeEffectOnce_iff
    (Tmi.between_init (Build.twoWay false false) fun _ => 0) rfl (by decide) (fun _ _ => rfl) hrun
  refine ⟨rss, t, hphases, hiff.mpr (.inr ⟨rfl, .inr ⟨rfl, .inr ?_⟩⟩)⟩
  rintro i hi
  obtain rfl : i = 0 := Nat.lt_one_iff.mp hi
  exact ⟨fun _ => rfl, fun (hsendto : wtsSend = wtsSendto) => absurd hsendto (by decide)⟩

/-- Three phases in a build for three: phase 2 opens a second socket and sends the bytes itself,
and the flush is refused. -/
theorem openAndSend_threePhases :
    ∃ rss t, Tmi.phases Env.plain (Build.threeWay false false) 0 (fun _ => openAndSend)
        (Tmi.init (Build.threeWay false false) fun _ => 0) 2 = .ok (rss, t) ∧
      t.sysCalls = [.socket 2 1 0, .socket 2 1 0, .send 5 64 10 0] ∧
      t.sei.wts.canFlush (Build.threeWay false false) = .ok false ∧
      ¬ TakeEffectOnce Env.plain (Build.threeWay false false) 0 3 (fun _ => openAndSend)
        (Tmi.init (Build.threeWay false false) fun _ => 0) [.socket 2 1 0, .send 5 64 10 0] rss t := by
  refine ⟨_, _, rfl, rfl, rfl, fun h => ?_⟩
  exact Bool.noConfusion (Except.ok.inj h.accepted)

end Once

end LibSei
