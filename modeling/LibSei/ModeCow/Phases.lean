-- SUMMARY: What holds in every phase of a transaction: memory, the logs of the finished phases and the log of the current one.
import LibSei.ModeCow.Traversal

/-!
# The phases of a transaction

Every phase runs on the memory of `sei_begin`. While it runs, its log holds what its
writes have overwritten; once it has been left, the log holds what it wrote. This is
kept by every operation of a handler and by every switch, whatever the phases do.
-/

namespace LibSei

open Memory Control

/-- The write an operation makes, if it is one. -/
def Call.toWrite? : Call → Option Write
  | .write t addr value =>
      some ⟨addr, t.sizeof, value % 256 ^ t.sizeof, Nat.mod_lt _ (Nat.pow_pos (by decide))⟩
  | _ => none

/-- The writes of a phase, in order. -/
def writesOf (cs : List Call) : List Write := cs.filterMap Call.toWrite?

theorem sized_writesOf (cs : List Call) : Abuf.Sized (writesOf cs) := by
  intro w hw
  obtain ⟨c, _, hc⟩ := List.mem_filterMap.mp hw
  cases c with
  | write t addr value =>
    cases hc
    simp
  | _ => cases hc

@[simp] theorem writesOf_append (cs ds : List Call) :
    writesOf (cs ++ ds) = writesOf cs ++ writesOf ds := List.filterMap_append

/-- An operation that is not a write adds none. -/
theorem append_writesOf_of_none {c : Call} (h : c.toWrite? = none) (ws : List Write) :
    ws ++ writesOf [c] = ws := by
  simp [writesOf, h]

/-- Storing a value is applying the write that holds it narrowed to its width. -/
theorem apply_toWrite {t : UIntTy} {addr value : Nat} {w : Write}
    (h : Call.toWrite? (.write t addr value) = some w) (m : Mem) :
    w.apply m = store m addr t.sizeof value := by
  cases h
  exact Write.apply_ofNat addr t.sizeof value m

namespace World

/-- The parts of the library are set to run `n` phases, and nothing of a transaction is left in
them. The arrays of the logs may hold anything. -/
structure Emptied (b : Build) (n : Nat) (w : World) : Prop where
  two_le : 2 ≤ n
  le : n ≤ b.redundancy
  level : w.sei.redundancyLevel = n
  cow : ∀ j < n, (w.sei.cow j).Empty
  talloc_p : w.sei.talloc.p = 0
  talloc_level : w.sei.talloc.redundancyLevel = n
  talloc_size : ∀ j < n, w.sei.talloc.size j = 0
  tbin_level : w.sei.tbin.redundancyLevel = n
  obuf_p : w.sei.obuf.p = 0
  obuf_level : w.sei.obuf.redundancyLevel = n

/-- Between transactions: the library is as `sei_init` or a finished transaction leaves it. -/
structure Idle (b : Build) (n : Nat) (w : World) : Prop extends Emptied b n w where
  p : w.sei.p = -1

/-- The library is ready for a transaction after `sei_init`. -/
theorem idle_init (b : Build) (mem : Mem) : (World.init b mem).Idle b b.redundancy where
  two_le := b.two_le
  le := le_refl _
  p := rfl
  level := rfl
  cow _ _ := ⟨rfl, rfl⟩
  talloc_p := rfl
  talloc_level := rfl
  talloc_size _ _ := rfl
  tbin_level := rfl
  obuf_p := rfl
  obuf_level := rfl

/-- A transaction of `n` phases can start: between transactions, or where a rollback has put
phase 0 back to its beginning. -/
structure Startable (b : Build) (n : Nat) (w : World) : Prop extends Emptied b n w where
  p : w.sei.p = -1 ∨ w.sei.p = 0

theorem Idle.startable {b : Build} {n : Nat} {w : World} (h : w.Idle b n) : w.Startable b n :=
  { h with p := .inl h.p }

/-- The number of phases of an idle library can be changed. -/
theorem Idle.setRedundancy {b : Build} {n k : Nat} {w : World} (h : w.Idle b n) (hk : 2 ≤ k)
    (hle : k ≤ n) : ∃ s, w.sei.setRedundancy b k = .ok s ∧ World.Idle b k { w with sei := s } := by
  rw [Sei.setRedundancy, Build.assert_of ⟨hk, hle.trans h.le⟩, ok_bind, Build.assert_of h.p, ok_bind]
  exact ⟨_, rfl, {
    two_le := hk
    le := hle.trans h.le
    p := h.p
    level := rfl
    cow := fun j hj => h.cow j (by omega)
    talloc_p := h.talloc_p
    talloc_level := rfl
    talloc_size := fun j hj => h.talloc_size j (by omega)
    tbin_level := rfl
    obuf_p := h.obuf_p
    obuf_level := rfl }⟩

/-- The state inside phase `k` of a transaction begun in `w0`, after the writes `ws` of
this phase; phase `j` before it made the writes `hist j`. -/
structure InPhase (w0 : World) (n : Nat) (hist : Nat → List Write) (k : Nat) (ws : List Write)
    (w : World) : Prop where
  p : w.sei.p = k
  level : w.sei.redundancyLevel = n
  mem : w.mem = runWrites ws w0.mem
  current : (w.sei.cow k).Holds (olds ws w0.mem)
  past : ∀ j < k, (w.sei.cow j).Holds (hist j)
  future : ∀ j, k < j → j < n → (w.sei.cow j).Empty
  poped : ∀ j < n, (w.sei.cow j).poped = 0
  stale : ∀ j < n, ∀ i, (w.sei.cow j).pushed ≤ i → (w.sei.cow j).buf i = (w0.sei.cow j).buf i
  talloc_p : w.sei.talloc.p = k
  talloc_level : w.sei.talloc.redundancyLevel = n
  talloc_size : ∀ j, k < j → j < n → w.sei.talloc.size j = 0
  tbin_level : w.sei.tbin.redundancyLevel = n

section Steps

variable {env : Env} {b : Build} {w0 w w' : World} {n k : Nat} {hist : Nat → List Write}
  {ws : List Write}

/-- A phase starts without writes. -/
theorem Startable.begin (h : w0.Startable b n) : InPhase w0 n hist 0 [] w0.beginPhase := by
  have hlt : 0 < n := Nat.lt_of_lt_of_le (by decide) h.two_le
  -- `sei_begin` sets the phase and the control flags; in phase 0 it does nothing
  have hbegin : ∃ cf, w0.beginPhase = { w0 with sei := { w0.sei with p := 0, cf := cf } } := by
    unfold beginPhase
    rcases h.p with hp | hp
    · exact ⟨_, if_pos hp⟩
    · refine ⟨w0.sei.cf, (if_neg (by omega)).trans ?_⟩
      rw [← hp]
  obtain ⟨cf, hbegin⟩ := hbegin
  rw [hbegin]
  exact {
    p := rfl
    level := h.level
    mem := rfl
    current := (h.cow 0 hlt).holds
    past := fun j hj => absurd hj (Nat.not_lt_zero j)
    future := fun j _ hj => h.cow j hj
    poped := fun j hj => (h.cow j hj).poped
    stale := fun _ _ _ _ => rfl
    talloc_p := h.talloc_p
    talloc_level := h.talloc_level
    talloc_size := fun j _ hj => h.talloc_size j hj
    tbin_level := h.tbin_level }

/-- Inside a phase below the redundancy of the build a write always succeeds. -/
theorem write_eq (hp : w.sei.p = k) (hk : k < b.redundancy) (t : UIntTy) (addr value : Nat) :
    w.write b t addr value = .ok (w.logWrite k t addr value) := by
  have hred : (0 : Int) ≤ k ∧ (k : Int) < b.redundancy := by omega
  have hmax : (0 : Int) ≤ k ∧ (k : Int) < maxRedundancy := by
    have := b.le_max
    omega
  rw [write, hp, Build.assert_of hred, ok_bind, inBounds_of hmax, ok_bind, Int.toNat_natCast]
  rfl

/-- The write as the code makes it ends in a log with room, or stops the process. -/
theorem seiWrite_eq (hp : w.sei.p = k) (hk : k < b.redundancy) (t : UIntTy) (addr value : Nat) :
    w.seiWrite b t addr value = if (w.sei.cow k).HasRoom then .ok (w.logWrite k t addr value)
      else .error (.fail "no space left" []) := by
  have hred : (0 : Int) ≤ k ∧ (k : Int) < b.redundancy := by omega
  have hmax : (0 : Int) ≤ k ∧ (k : Int) < maxRedundancy := by
    have := b.le_max
    omega
  rw [seiWrite, hp, Build.assert_of hred, ok_bind, inBounds_of hmax, ok_bind, Int.toNat_natCast,
    Abuf.pushType_eq]
  split <;> rfl

/-- Replacing the log of phase `k` by a rewound one that leaves the array behind its entries
alone. -/
theorem InPhase.update_cow (h : InPhase w0 n hist k ws w) {a : Abuf} (hpoped : a.poped = 0)
    (hstale : ∀ i, a.pushed ≤ i → a.buf i = (w0.sei.cow k).buf i) :
    (∀ j < n, (Function.update w.sei.cow k a j).poped = 0) ∧
      ∀ j < n, ∀ i, (Function.update w.sei.cow k a j).pushed ≤ i →
        (Function.update w.sei.cow k a j).buf i = (w0.sei.cow j).buf i := by
  refine ⟨fun j hj => ?_, fun j hj i hi => ?_⟩
  all_goals by_cases hjk : j = k
  · subst hjk
    rw [Function.update_self]
    exact hpoped
  · rw [Function.update_of_ne hjk]
    exact h.poped j hj
  · subst hjk
    rw [Function.update_self] at hi ⊢
    exact hstale i hi
  · rw [Function.update_of_ne hjk] at hi ⊢
    exact h.stale j hj i hi

/-- A write is logged with the value it overwrites and then made. -/
theorem InPhase.write (h : InPhase w0 n hist k ws w) (hk : k < n) (hn : n ≤ b.redundancy)
    {t : UIntTy} {addr value : Nat} {x : Write}
    (hx : Call.toWrite? (.write t addr value) = some x)
    (hrun : w.write b t addr value = .ok w') : InPhase w0 n hist k (ws ++ [x]) w' := by
  rw [write_eq h.p (by omega), Except.ok.injEq] at hrun
  subst hrun
  have hself : (w.logWrite k t addr value).sei.cow k =
      (w.sei.cow k).push t addr (load w.mem addr t.sizeof) := Function.update_self _ _ _
  have hother : ∀ j, j ≠ k → (w.logWrite k t addr value).sei.cow j = w.sei.cow j :=
    fun j hj => Function.update_of_ne hj _ _
  have hlogs := h.update_cow (a := (w.sei.cow k).push t addr (load w.mem addr t.sizeof))
    (h.poped k hk) fun i hi => by
      rw [Abuf.push_pushed] at hi
      rw [Abuf.push_buf_of_ne _ _ _ _ (by omega)]
      exact h.stale k hk i (by omega)
  refine ⟨h.p, h.level, ?_, ?_, ?_, ?_, hlogs.1, hlogs.2, h.talloc_p, h.talloc_level,
    h.talloc_size, h.tbin_level⟩
  · show store w.mem addr t.sizeof value = _
    rw [← apply_toWrite hx, h.mem, runWrites_append]
    rfl
  · rw [hself, olds_append_singleton]
    refine h.current.push ?_ ?_ ?_
    · cases hx; rfl
    · cases hx; rfl
    · cases hx
      show load (runWrites ws w0.mem) addr t.sizeof = _
      rw [h.mem, Nat.mod_eq_of_lt (load_lt _ _ _)]
  · intro j hj
    rw [hother j (by omega)]
    exact h.past j hj
  · intro j hkj hj
    rw [hother j (by omega)]
    exact h.future j hkj hj

/-- What an allocation leaves alone. -/
theorem Talloc.malloc_frame {t t' : Talloc} {m m' : Machine} {size addr : Nat}
    (h : t.malloc env b size m = .ok (addr, t', m')) :
    m'.mem = m.mem ∧ m'.trace = m.trace ∧ t'.p = t.p ∧ t'.redundancyLevel = t.redundancyLevel ∧
      ∀ j, j ≠ t.p → t'.size j = t.size j := by
  rcases Talloc.malloc_eq_ok h with ⟨hp, _, rfl, rfl⟩ | ⟨_, _, rfl, rfl⟩
  · exact ⟨rfl, rfl, rfl, rfl, fun j hj => Function.update_of_ne (hp ▸ hj) _ _⟩
  · exact ⟨rfl, rfl, rfl, rfl, fun j hj => Function.update_of_ne hj _ _⟩

/-- An operation extends the writes of the phase by the write it makes. -/
theorem InPhase.call (h : InPhase w0 n hist k ws w) (hk : k < n) (hn : n ≤ b.redundancy)
    {c : Call} (hrun : w.call env b c = .ok w') :
    InPhase w0 n hist k (ws ++ writesOf [c]) w' := by
  cases c with
  | write t addr value => exact h.write hk hn rfl hrun
  | malloc size =>
    simp only [World.call, World.malloc, bind_eq_ok, pure_eq_ok, Except.ok.injEq] at hrun
    obtain ⟨⟨_, w1⟩, ⟨⟨addr, talloc, machine⟩, hmalloc, hw1⟩, rfl⟩ := hrun
    obtain ⟨rfl, rfl⟩ := Prod.mk.injEq _ _ _ _ ▸ hw1
    obtain ⟨hmem, _, hp, hlevel, hsize⟩ := Talloc.malloc_frame hmalloc
    rw [append_writesOf_of_none rfl]
    exact { h with
      mem := hmem.trans h.mem
      talloc_p := hp.trans h.talloc_p
      talloc_level := hlevel.trans h.talloc_level
      talloc_size := fun j hkj hj =>
        (hsize j (by rw [h.talloc_p]; omega)).trans (h.talloc_size j hkj hj) }
  | free ptr =>
    simp only [World.call, World.free, bind_eq_ok, pure_eq_ok, Except.ok.injEq] at hrun
    obtain ⟨tbin, htbin, rfl⟩ := hrun
    rw [append_writesOf_of_none rfl]
    have hlevel : tbin.redundancyLevel = w.sei.tbin.redundancyLevel := by
      simp only [Tbin.add, bind_eq_ok, pure_eq_ok, Except.ok.injEq] at htbin
      obtain ⟨_, _, _, _, _, _, _, _, rfl⟩ := htbin
      rfl
    exact { h with tbin_level := hlevel.trans h.tbin_level }
  | outputAppend ptr size =>
    rw [append_writesOf_of_none rfl]
    simp only [World.call, World.outputAppend] at hrun
    split at hrun
    · cases hrun
      exact h
    · rw [bind_eq_ok] at hrun
      obtain ⟨obuf, _, hw⟩ := hrun
      cases hw
      exact { h with }
  | outputDone =>
    rw [append_writesOf_of_none rfl]
    simp only [World.call, World.outputDone] at hrun
    split at hrun
    · cases hrun
      exact h
    · rw [bind_eq_ok] at hrun
      obtain ⟨obuf, _, hw⟩ := hrun
      cases hw
      exact { h with }
  | defer fp args =>
    rw [append_writesOf_of_none rfl]
    simp only [World.call, World.defer, bind_eq_ok, pure_eq_ok, Except.ok.injEq] at hrun
    obtain ⟨wts, _, rfl⟩ := hrun
    exact { h with }

theorem InPhase.calls (h : InPhase w0 n hist k ws w) (hk : k < n) (hn : n ≤ b.redundancy)
    {cs : List Call} (hrun : World.calls env b cs w = .ok w') :
    InPhase w0 n hist k (ws ++ writesOf cs) w' := by
  induction cs generalizing w ws with
  | nil =>
    cases hrun
    simpa [writesOf] using h
  | cons c cs ih =>
    rw [World.calls, bind_eq_ok] at hrun
    obtain ⟨w1, hc, hrest⟩ := hrun
    have := ih (h.call hk hn hc) hrest
    rwa [List.append_assoc, ← writesOf_append] at this

/-- Leaving phase `k` puts memory back and leaves in its log what the phase wrote. -/
theorem InPhase.switch (h : InPhase w0 n hist k (hist k) w) (hk : k + 1 < n)
    (hsized : Abuf.Sized (hist k)) (hrun : w.switch env b = .ok w') :
    InPhase w0 n hist (k + 1) [] w' := by
  obtain ⟨a, hswap, hholds, hpushed, hpoped, _, hstale⟩ :=
    Abuf.swap_spec b h.current hsized (h.poped k (by omega))
  rw [← h.mem] at hswap
  have hprev : ((k : Int) + 1 - 1).toNat = k := by omega
  simp only [World.switch, h.p, hprev, bind_eq_ok, pure_eq_ok, Except.ok.injEq] at hrun
  obtain ⟨_, _, talloc, htalloc, _, _, ⟨a', mem'⟩, hrun, hw'⟩ := hrun
  rw [hswap, Except.ok.injEq, Prod.mk.injEq] at hrun
  obtain ⟨rfl, rfl⟩ := hrun
  simp only [Talloc.switch, bind_eq_ok, pure_eq_ok, Except.ok.injEq] at htalloc
  obtain ⟨_, _, _, _, rfl⟩ := htalloc
  subst hw'
  have hother : ∀ j, j ≠ k → Function.update w.sei.cow k a j = w.sei.cow j :=
    fun j hj => Function.update_of_ne hj _ _
  have hlogs := h.update_cow hpoped fun i hi => by
    rw [hstale i (by omega)]
    exact h.stale k (by omega) i (by omega)
  refine ⟨by push_cast; rfl, h.level, rfl, ?_, ?_, ?_, hlogs.1, hlogs.2, ?_, h.talloc_level, ?_,
    h.tbin_level⟩
  · simp only [hother (k + 1) (by omega)]
    exact (h.future (k + 1) (by omega) hk).holds
  · intro j hj
    by_cases hjk : j = k
    · subst hjk
      simp only [Function.update_self]
      exact hholds
    · simp only [hother j hjk]
      exact h.past j (by omega)
  · intro j hkj hj
    simp only [hother j (by omega)]
    exact h.future j (by omega) hj
  · show w.sei.talloc.p + 1 = k + 1
    rw [h.talloc_p]
  · intro j hkj hj
    exact h.talloc_size j (by omega) hj

/-- The writes of the current phase may stand in the history already. -/
theorem InPhase.remember (h : InPhase w0 n hist k ws w) :
    InPhase w0 n (Function.update hist k ws) k ws w :=
  { h with
    past := fun j hj => by
      rw [Function.update_of_ne (by omega)]
      exact h.past j hj }

/-- Memory may change where the phase has not written. The phase is then in the state of a
transaction begun on memory that had these changes already. -/
theorem InPhase.interfere (h : InPhase w0 n hist k ws w) {machine : Machine}
    (hmem : ∀ x ∈ ws, ∀ byte, x.Covers byte → machine.mem byte = w.mem byte) :
    InPhase { w0 with machine := { w0.machine with mem := patch ws w0.mem machine.mem } } n hist k
      ws { w with machine := machine } :=
  { h with
    mem := by
      refine (runWrites_patch fun x hx byte hb => ?_).symm
      exact (hmem x hx byte hb).trans (congrFun h.mem byte)
    current := olds_patch.symm ▸ h.current }

variable (env) in
/-- A switch out of a phase before the last succeeds. -/
theorem InPhase.exists_switch (h : InPhase w0 n hist k ws w) (hk : k + 1 < n)
    (hn : n ≤ b.redundancy) (hsized : Abuf.Sized ws) : ∃ w', w.switch env b = .ok w' := by
  obtain ⟨a, hswap, _⟩ := Abuf.swap_spec b h.current hsized (h.poped k (by omega))
  rw [← h.mem] at hswap
  have hphase : (0 : Int) ≤ k ∧ (k : Int) < n - 1 := by omega
  have hlevel : 0 ≤ k ∧ k + 1 < n := by omega
  have hmax : (0 : Int) ≤ (k : Int) + 1 - 1 ∧ (k : Int) + 1 - 1 < maxRedundancy := by
    have := b.le_max
    omega
  have hprev : ((k : Int) + 1 - 1).toNat = k := by omega
  obtain ⟨t, htalloc⟩ : ∃ t, w.sei.talloc.switch b = .ok t := by
    rw [Talloc.switch, h.talloc_p, h.talloc_level, Build.assert_of hlevel, ok_bind,
      Build.assert_of (h.talloc_size (k + 1) (by omega) hk), ok_bind]
    exact ⟨_, rfl⟩
  simp only [World.switch, h.p, h.level, Build.assert_of hphase, htalloc, inBounds_of hmax, hprev,
    hswap, ok_bind]
  exact ⟨_, rfl⟩

end Steps

/-! ## Whole transactions -/

section Runs

variable {env : Env} {b : Build} {w0 w : World} {n k : Nat} {hist : Nat → List Write}
  {body : Nat → World → Exec World}

/-- Every phase starts on the memory of `sei_begin`, with the logs of the phases before
it holding what they wrote. -/
theorem Startable.phaseStart (h : w0.Startable b n) (hsized : ∀ j, Abuf.Sized (hist j))
    (hbody : ∀ j w w', j < n → InPhase w0 n hist j [] w → body j w = .ok w' →
      InPhase w0 n hist j (hist j) w')
    (hk : k < n) (hrun : World.phaseStart env b body w0 k = .ok w) : InPhase w0 n hist k [] w := by
  induction k generalizing w with
  | zero =>
    cases hrun
    exact h.begin
  | succ k ih =>
    simp only [World.phaseStart, bind_eq_ok] at hrun
    obtain ⟨w1, hstart, w2, hphase, hswitch⟩ := hrun
    have hend := hbody k w1 w2 (by omega) (ih (by omega) hstart) hphase
    exact hend.switch hk (hsized k) hswitch

/-- When no phase stops, every phase is reached. -/
theorem Startable.exists_phaseStart (h : w0.Startable b n) (hsized : ∀ j, Abuf.Sized (hist j))
    (hbody : ∀ j w, j < n → InPhase w0 n hist j [] w →
      ∃ w', body j w = .ok w' ∧ InPhase w0 n hist j (hist j) w')
    (hk : k < n) :
    ∃ w, World.phaseStart env b body w0 k = .ok w ∧ InPhase w0 n hist k [] w := by
  induction k with
  | zero => exact ⟨_, rfl, h.begin⟩
  | succ k ih =>
    obtain ⟨w1, hstart, hin⟩ := ih (by omega)
    obtain ⟨w2, hphase, hend⟩ := hbody k w1 (by omega) hin
    obtain ⟨w3, hswitch⟩ := hend.exists_switch env hk h.le (hsized k)
    refine ⟨w3, ?_, hend.switch hk (hsized k) hswitch⟩
    rw [World.phaseStart, hstart, ok_bind, hphase, ok_bind, hswitch]

/-- The state at the start of phase `k`, whatever the phases did. -/
theorem Startable.inPhase_start (h : w0.Startable b n) {phases : Nat → List Call} (hk : k < n)
    (hrun : World.phaseStart env b (fun j => World.calls env b (phases j)) w0 k = .ok w) :
    InPhase w0 n (fun j => writesOf (phases j)) k [] w := by
  refine h.phaseStart (fun j => sized_writesOf (phases j)) ?_ hk hrun
  intro j w w' hj hin hcalls
  exact hin.calls hj h.le hcalls

/-- The state inside phase `k`, whatever the phases did. -/
theorem Startable.inPhase (h : w0.Startable b n) {phases : Nat → List Call} {cs : List Call}
    (hk : k < n)
    (hrun : World.inPhase env b phases w0 k cs = .ok w) :
    InPhase w0 n (fun j => writesOf (phases j)) k (writesOf cs) w := by
  rw [World.inPhase, bind_eq_ok] at hrun
  obtain ⟨w1, hstart, hcalls⟩ := hrun
  exact (h.inPhase_start hk hstart).calls hk h.le hcalls

theorem Idle.inPhase (h : w0.Idle b n) {phases : Nat → List Call} {cs : List Call} (hk : k < n)
    (hrun : World.inPhase env b phases w0 k cs = .ok w) :
    InPhase w0 n (fun j => writesOf (phases j)) k (writesOf cs) w :=
  h.startable.inPhase hk hrun

end Runs

end World

end LibSei
