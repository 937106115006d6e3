-- SUMMARY: Isolation under two-phase locking: in every interleaving, all phases of a handler do the same on committed values.
import LibSei.Tmi.Ownership

/-!
# Isolation under two-phase locking

A switch writes old values into shared memory while other threads run. No handler notices,
as long as handlers take the mutex of a shared byte before they touch it: the mutexes are
held until the thread has committed, so what a thread undoes and does again happens in bytes
that no other thread touches.
-/

namespace LibSei

open Memory Control

/-! ## The invariant -/

/-- A thread in its place, thread `i` of a system with the committed memory `C`. -/
def ThreadInv (b : Build) (guard : Nat → Guard) (n i : Nat) (C : Mem) (t : Tmi) : Pc → Prop
  | .outside => t.Between b n
  | .running h rest first now =>
      Undo b n (Owns guard i t.locks.held) C (actionWrites now) t ∧
        Replays guard i C t.sei.p t.locks h rest first now
  | .leaving _ => t.world.Idle b n ∧ t.world.Clear b ∧
      (∀ j < b.redundancy, t.sei.tbin.nitems j = 0) ∧ ∀ j < b.redundancy, t.sei.wts.nitems j = 0

/-- The thread has written the byte in the phase it is in. -/
def Pc.Covers (byte : Nat) : Pc → Prop
  | .running _ _ _ now => ∃ w ∈ actionWrites now, w.Covers byte
  | _ => False

/-- No mutex is held twice, every thread is as its place says, and memory is the committed one
where no thread has written in the phase it is in. -/
structure SystemInv (b : Build) (guard : Nat → Guard) (n : Nat → Nat) (s : System) : Prop where
  ignoreNum : s.process.ignore.num = 0
  enabled : s.process.ignore.writeDisable = 0
  exclusive : ∀ i j, i ≠ j → ∀ m ∈ (s.tmi i).locks.held, m ∉ (s.tmi j).locks.held
  threads : ∀ i, ThreadInv b guard (n i) i s.committed (s.tmi i) (s.pc i)
  memory : ∀ byte, (∀ i, ¬ (s.pc i).Covers byte) → s.process.machine.mem byte = s.committed byte

section Threads

variable {b : Build} {guard : Nat → Guard} {n i : Nat} {C C' : Mem} {t : Tmi} {pc : Pc}

theorem ThreadInv.owns_of_covers (h : ThreadInv b guard n i C t pc) {byte : Nat}
    (hb : pc.Covers byte) : Owns guard i t.locks.held byte := by
  cases pc with
  | outside => exact False.elim hb
  | leaving k => exact False.elim hb
  | running handler rest first now =>
    obtain ⟨w, hw, hcov⟩ := hb
    exact h.2.owns_of_covers hw hcov

/-- Steps of other threads change neither what a thread has of its own nor the bytes it
owns. -/
theorem ThreadInv.interfere (h : ThreadInv b guard n i C t pc) {g : Ignore} {machine : Machine}
    (hnum : g.num = 0)
    (hmem : ∀ byte, Owns guard i t.locks.held byte → machine.mem byte = t.machine.mem byte)
    (hC : ∀ byte, Owns guard i t.locks.held byte → C' byte = C byte) :
    ThreadInv b guard n i C' { t with ignore := g, machine := machine } pc := by
  cases pc with
  | outside =>
    have h : t.Between b n := h
    exact ⟨{ h.idle with }, { h.clear with }, h.tbin, h.wts, h.abuf, h.abufSc, hnum⟩
  | leaving k =>
    obtain ⟨hidle, hclear, htbin, hwts⟩ := h
    exact ⟨{ hidle with }, { hclear with }, htbin, hwts⟩
  | running handler rest first now =>
    obtain ⟨hundo, hreplays⟩ := h
    exact ⟨hundo.interfere (fun w hw byte hb => hreplays.owns_of_covers hw hb) rfl hmem hC,
      hreplays.interfere hC⟩

end Threads

section Systems

variable {env : Env} {b : Build} {guard : Nat → Guard} {n : Nat → Nat} {s s' : System} {i : Nat}
  {t : Tmi} {pc : Pc} {C : Mem}

/-- A byte that thread `i` owns and has not written holds the committed value. -/
theorem SystemInv.mem_of_owns (h : SystemInv b guard n s) {byte : Nat}
    (hown : Owns guard i (s.tmi i).locks.held byte) (hcover : ¬ (s.pc i).Covers byte) :
    s.process.machine.mem byte = s.committed byte := by
  refine h.memory byte fun j hj => ?_
  by_cases hij : i = j
  · exact hcover (hij ▸ hj)
  · exact hown.exclusive hij (h.exclusive i j hij) ((h.threads j).owns_of_covers hj)

/-- A step of thread `i`: the thread is as its new place says, and it has changed nothing that
others own. -/
theorem SystemInv.set (h : SystemInv b guard n s)
    (hthread : ThreadInv b guard (n i) i C t pc)
    (hnum : t.ignore.num = 0) (henabled : t.ignore.writeDisable = 0)
    (hheld : ∀ m ∈ t.locks.held,
      m ∈ (s.tmi i).locks.held ∨ ∀ j, j ≠ i → m ∉ (s.tmi j).locks.held)
    (hother : ∀ byte, ¬ Owns guard i (s.tmi i).locks.held byte →
      t.machine.mem byte = s.process.machine.mem byte ∧ C byte = s.committed byte)
    (hmemory : ∀ byte, ¬ pc.Covers byte → t.machine.mem byte = C byte ∨
      ¬ (s.pc i).Covers byte ∧ t.machine.mem byte = s.process.machine.mem byte ∧
        C byte = s.committed byte) :
    SystemInv b guard n (s.set i t pc C) := by
  -- a mutex of thread `i` is held by no other thread
  have hfree : ∀ m ∈ t.locks.held, ∀ j, j ≠ i → m ∉ (s.tmi j).locks.held := fun m hm j hj => by
    rcases hheld m hm with hm | hm
    · exact h.exclusive i j (Ne.symm hj) m hm
    · exact hm j hj
  have hlocks : ∀ j, j ≠ i → ((s.set i t pc C).tmi j).locks = (s.tmi j).locks := fun j hj => by
    rw [System.tmi_set_of_ne hj]
  refine ⟨hnum, henabled, fun j k hjk m hm => ?_, fun j => ?_, fun byte hb => ?_⟩
  · by_cases hj : j = i
    · subst hj
      rw [System.tmi_set_self] at hm
      rw [hlocks k (Ne.symm hjk)]
      exact hfree m hm k (Ne.symm hjk)
    · rw [hlocks j hj] at hm
      by_cases hk : k = i
      · subst hk
        rw [System.tmi_set_self]
        exact fun hm' => hfree m hm' j hj hm
      · rw [hlocks k hk]
        exact h.exclusive j k hjk m hm
  · by_cases hj : j = i
    · subst hj
      rw [System.tmi_set_self, System.pc_set_self]
      exact hthread
    · rw [System.tmi_set_of_ne hj, System.pc_set_of_ne hj]
      have hown : ∀ byte, Owns guard j (s.tmi j).locks.held byte →
          t.machine.mem byte = s.process.machine.mem byte ∧ C byte = s.committed byte :=
        fun byte hown => hother byte (hown.exclusive hj (h.exclusive j i hj))
      exact (h.threads j).interfere hnum (fun byte hb => (hown byte hb).1)
        (fun byte hb => (hown byte hb).2)
  · have hi := hb i
    rw [System.pc_set_self] at hi
    rcases hmemory byte hi with hmem | ⟨hcover, hmem, hC⟩
    · exact hmem
    · refine hmem.trans ((h.memory byte fun j => ?_).trans hC.symm)
      by_cases hj : j = i
      · exact hj ▸ hcover
      · have hbj := hb j
        rw [System.pc_set_of_ne hj] at hbj
        exact hbj

/-- A step that changes neither memory nor what the thread has written. -/
theorem SystemInv.set_of_mem (h : SystemInv b guard n s)
    (hthread : ThreadInv b guard (n i) i s.committed t pc)
    (hignore : t.ignore = s.process.ignore) (hmachine : t.machine = s.process.machine)
    (hheld : ∀ m ∈ t.locks.held,
      m ∈ (s.tmi i).locks.held ∨ ∀ j, j ≠ i → m ∉ (s.tmi j).locks.held)
    (hcover : ∀ byte, (s.pc i).Covers byte → pc.Covers byte) :
    SystemInv b guard n (s.set i t pc s.committed) :=
  h.set hthread (hignore ▸ h.ignoreNum) (hignore ▸ h.enabled) hheld
    (fun _ _ => ⟨by rw [hmachine], rfl⟩)
    (fun byte hb => .inr ⟨fun hb' => hb (hcover byte hb'), by rw [hmachine], rfl⟩)

theorem SystemInv.initial (h : s.Initial b n) : SystemInv b guard n s where
  ignoreNum := (h.between 0).ignoreNum
  enabled := h.enabled
  exclusive i _ _ m hm := by rw [h.unlocked i] at hm; exact absurd hm (Finset.notMem_empty m)
  threads i := by rw [h.outside i]; exact h.between i
  memory _ _ := by rw [h.committed]

/-- The thread is inside a handler. -/
theorem SystemInv.running (h : SystemInv b guard n s) {handler rest : LockHandler}
    {first now : List Action} (hpc : s.pc i = .running handler rest first now) :
    Undo b (n i) (Owns guard i (s.tmi i).locks.held) s.committed (actionWrites now) (s.tmi i) ∧
      Replays guard i s.committed (s.tmi i).sei.p (s.tmi i).locks handler rest first now := by
  have hthread := h.threads i
  rw [hpc] at hthread
  exact hthread

/-! ## Steps -/

theorem SystemInv.begin (h : SystemInv b guard n s) {rbp : Nat} {handler : LockHandler}
    (hpc : s.pc i = .outside) : SystemInv b guard n
      (s.set i ((s.tmi i).seiBegin rbp) (.running handler handler [] []) s.committed) := by
  have hbetween : (s.tmi i).Between b (n i) := by
    have hthread := h.threads i
    rw [hpc] at hthread
    exact hthread
  have hnone : ∀ byte, ¬ (s.pc i).Covers byte := fun byte hb => by
    rw [hpc] at hb
    exact hb
  have hin : World.InPhase (s.tmi i).world (n i) (fun _ => []) 0 [] (s.tmi i).world.beginPhase :=
    hbetween.idle.startable.begin
  have hp : ((s.tmi i).seiBegin rbp).sei.p = 0 := hin.p
  have hmachine : ((s.tmi i).seiBegin rbp).machine = s.process.machine := by
    show (s.tmi i).world.beginPhase.machine = _
    unfold World.beginPhase
    split <;> rfl
  refine h.set_of_mem ⟨?_, ?_⟩ rfl hmachine (fun m hm => .inl hm)
    (fun byte hb => absurd hb (hnone byte))
  · exact Undo.begin hbetween fun byte hown => h.mem_of_owns hown (hnone byte)
  · rw [hp]
    exact Replays.begin handler hbetween.abuf

theorem SystemInv.read (h : SystemInv b guard n s) {handler : LockHandler} {ty : UIntTy}
    {addr v : Nat} {next : Nat → LockHandler} {first now : List Action}
    (hpc : s.pc i = .running handler (.read ty addr next) first now)
    (hv : v = (s.tmi i).world.read ty addr)
    (hallowed : (s.tmi i).sei.p = 0 → System.Allowed guard i now (.read ty addr v)) :
    SystemInv b guard n (s.set i (s.tmi i)
      (.advance (s.tmi i).sei.p handler (next v) first now (.access (.read ty addr v)))
      s.committed) := by
  obtain ⟨hundo, hreplays⟩ := h.running hpc
  have hwrites : actionWrites (now ++ [.access (.read ty addr v)]) = actionWrites now :=
    actionWrites_append.trans (List.append_nil _)
  have hnext : (LockHandler.read ty addr next).next (.access (.read ty addr v)) = some (next v) :=
    if_pos ⟨rfl, rfl⟩
  -- an owned location reads as committed memory with the writes of this phase
  have hreads : (∀ byte, addr ≤ byte ∧ byte < addr + ty.sizeof →
      Owns guard i (s.tmi i).locks.held byte) →
      v = load (runWrites (actionWrites now) s.committed) addr ty.sizeof := fun hown => by
    rw [hv]
    exact hundo.load hown
  refine h.set_of_mem ⟨?_, hreplays.access hnext (fun hp => ?_) (fun hp => ?_)⟩ rfl rfl
    (fun m hm => .inl hm) (fun byte hb => ?_)
  · rw [hwrites]
    exact hundo
  · have hown := hreplays.owns_of_allowed hp (hallowed hp)
    exact ⟨hreads hown, hown⟩
  · obtain ⟨e, rest', hmem, hrepeat, hnext', hfrom⟩ :=
      hreplays.next_of_later hp (fun hd => LockHandler.noConfusion hd)
    obtain ⟨v', rfl, _⟩ := LockHandler.next_read hnext'
    have hfrom : v' = load (runWrites (actionWrites now) s.committed) addr ty.sizeof := hfrom
    rw [hreads (hreplays.owned _ hmem), ← hfrom]
    exact hrepeat
  · rw [hpc] at hb
    show ∃ w ∈ actionWrites (now ++ _), w.Covers byte
    rw [hwrites]
    exact hb

/-- Without ranges and with writes enabled, only the stack is ignored. -/
theorem SystemInv.ignoreAddr (h : SystemInv b guard n s) {sp addr : Nat}
    (hstack : ¬ (sp ≤ addr ∧ addr < (s.tmi i).high)) : (s.tmi i).ignoreAddr sp addr = false := by
  have hnum : (s.tmi i).ignore.num = 0 := h.ignoreNum
  have henabled : (s.tmi i).ignore.writeDisable = 0 := h.enabled
  have hin : (decide (sp ≤ addr) && decide (addr < (s.tmi i).high)) = false := by simpa using hstack
  rw [Tmi.ignoreAddr, henabled, hin, Ignore.covers, hnum]
  rfl

theorem SystemInv.write (h : SystemInv b guard n s) {handler next : LockHandler} {ty : UIntTy}
    {sp addr value : Nat} {first now : List Action} {r : Option Int32}
    (hpc : s.pc i = .running handler (.write ty addr value next) first now)
    (hstack : ¬ (sp ≤ addr ∧ addr < (s.tmi i).high))
    (hop : (s.tmi i).op env b (.write sp ty addr value) = .ok (r, t))
    (hallowed : (s.tmi i).sei.p = 0 → System.Allowed guard i now (.write ty addr value)) :
    SystemInv b guard n (s.set i t
      (.advance (s.tmi i).sei.p handler next first now (.access (.write ty addr value)))
      s.committed) := by
  obtain ⟨hundo, hreplays⟩ := h.running hpc
  obtain ⟨hundo', ht, hp, hmem⟩ := hundo.write (h.ignoreAddr hstack) hop
  have hlocks : t.locks = (s.tmi i).locks := by rw [ht]; rfl
  have hignore : t.ignore = s.process.ignore := by rw [ht]; rfl
  have hnext : (LockHandler.write ty addr value next).next (.access (.write ty addr value)) =
    some next := if_pos ⟨rfl, rfl, rfl⟩
  have hreplays' := hreplays.access hnext
    (fun hp => ⟨trivial, hreplays.owns_of_allowed hp (hallowed hp)⟩) fun hp => by
      obtain ⟨e, rest', _, hrepeat, hnext', _⟩ :=
        hreplays.next_of_later hp (fun hd => LockHandler.noConfusion hd)
      obtain rfl := LockHandler.next_write hnext'
      exact hrepeat
  rw [← actionWrites_append] at hundo'
  -- only bytes the thread owns are written
  have hkeep : ∀ byte, (¬ ∃ w ∈ actionWrites (now ++ [.access (.write ty addr value)]),
      w.Covers byte) → t.machine.mem byte = s.process.machine.mem byte := fun byte hb => by
    rw [hmem]
    refine runWrites_of_not_covers fun w hw hcov => hb ⟨w, ?_, hcov⟩
    rw [actionWrites_append]
    exact List.mem_append_right _ hw
  refine h.set ⟨?_, ?_⟩ (hignore ▸ h.ignoreNum) (hignore ▸ h.enabled) ?_ ?_ ?_
  · rw [hlocks]
    exact hundo'
  · rw [hlocks, hp]
    exact hreplays'
  · intro m hm
    exact .inl (hlocks ▸ hm)
  · intro byte hown
    exact ⟨hkeep byte fun ⟨w, hw, hcov⟩ => hown (hreplays'.owns_of_covers hw hcov), rfl⟩
  · intro byte hb
    refine .inr ⟨fun hb' => hb ?_, hkeep byte hb, rfl⟩
    rw [hpc] at hb'
    obtain ⟨w, hw, hcov⟩ := hb'
    refine ⟨w, ?_, hcov⟩
    rw [actionWrites_append]
    exact List.mem_append_left _ hw

/-- A byte whose mutex was free when thread `i` took it holds the committed value, and the
thread has not written it. -/
theorem SystemInv.mem_of_free (h : SystemInv b guard n s) {byte m : Nat}
    (hguard : guard byte = .mutex m) (hfree : ∀ j, m ∉ (s.tmi j).locks.held) :
    (∀ j, ¬ (s.pc j).Covers byte) ∧ s.process.machine.mem byte = s.committed byte := by
  have hcover : ∀ j, ¬ (s.pc j).Covers byte := fun j hj => by
    rcases (h.threads j).owns_of_covers hj with hj | ⟨m', hj, hm'⟩ <;> rw [hguard] at hj
    · cases hj
    · exact hfree j (Guard.mutex.inj hj ▸ hm')
  exact ⟨hcover, h.memory byte hcover⟩

/-- In phase 0 the thread may come to own more bytes. -/
theorem SystemInv.lockFirst (h : SystemInv b guard n s) {handler : LockHandler} {o : LockOp}
    {next : Int32 → LockHandler} {first now : List Action} {real r : Int32} {l : LockState}
    (hpc : s.pc i = .running handler (.lock o next) first now) (hp : (s.tmi i).sei.p = 0)
    (hrun : o.run b 0 real (s.tmi i).locks = .ok (r, l))
    (hfree : real = 0 → ∀ m, o.wants? = some m → ∀ j, j ≠ i → m ∉ (s.tmi j).locks.held) :
    SystemInv b guard n (s.set i ((s.tmi i).setLocks l)
      (.running handler (next r) (now ++ [.lock o r]) (now ++ [.lock o r])) s.committed) := by
  obtain ⟨hundo, hreplays⟩ := h.running hpc
  rw [hp] at hreplays
  obtain ⟨hreplays', hheld⟩ := hreplays.lockFirst hrun
  -- a mutex is new to the thread only if it was free
  have hnew : ∀ m ∈ l.held, m ∈ (s.tmi i).locks.held ∨ ∀ j, m ∉ (s.tmi j).locks.held := by
    intro m hm
    by_cases hmem : m ∈ (s.tmi i).locks.held
    · exact .inl hmem
    obtain ⟨hwants, hreal⟩ := mem_acquired_singleton.mp (((hheld m).mp hm).resolve_left hmem)
    refine .inr fun j => ?_
    by_cases hj : j = i
    · exact hj ▸ hmem
    · exact hfree hreal m hwants j hj
  refine h.set_of_mem ⟨?_, ?_⟩ rfl rfl (fun m hm => (hnew m hm).imp id fun hm j _ => hm j) ?_
  · rw [actionWrites_lock]
    refine (hundo.acquire fun byte hown => ?_).congr rfl
    rcases hown with hguard | ⟨m, hguard, hm⟩
    · exact .inl (.inl hguard)
    rcases hnew m hm with hm | hm
    · exact .inl (.inr ⟨m, hguard, hm⟩)
    · obtain ⟨hnone, hmem⟩ := h.mem_of_free hguard hm
      have hi := hnone i
      rw [hpc] at hi
      exact .inr ⟨hi, hmem⟩
  · show Replays guard i s.committed (s.tmi i).sei.p l _ _ _ _
    rw [hp]
    exact hreplays'
  · intro byte hb
    rw [hpc] at hb
    rw [Pc.Covers, actionWrites_lock]
    exact hb

/-- A later phase takes no mutex. -/
theorem SystemInv.lockLater (h : SystemInv b guard n s) {handler : LockHandler} {o : LockOp}
    {next : Int32 → LockHandler} {first now : List Action} {real r : Int32} {l : LockState}
    (hpc : s.pc i = .running handler (.lock o next) first now) (hp : 0 < (s.tmi i).sei.p)
    (hrun : o.run b (s.tmi i).sei.p real (s.tmi i).locks = .ok (r, l)) :
    SystemInv b guard n (s.set i ((s.tmi i).setLocks l)
      (.running handler (next r) first (now ++ [.lock o r])) s.committed) := by
  obtain ⟨hundo, hreplays⟩ := h.running hpc
  obtain ⟨r', l', hrun', hreplays', hheld⟩ := hreplays.lockLater (b := b) hp real
  rw [hrun, Except.ok.injEq, Prod.mk.injEq] at hrun'
  obtain ⟨rfl, rfl⟩ := hrun'
  refine h.set_of_mem ⟨?_, hreplays'⟩ rfl rfl (fun m hm => .inl (hheld ▸ hm)) ?_
  · show Undo b (n i) (Owns guard i l.held) s.committed _ _
    rw [actionWrites_lock, hheld]
    exact hundo.congr rfl
  · intro byte hb
    rw [hpc] at hb
    rw [Pc.Covers, actionWrites_lock]
    exact hb

theorem SystemInv.lock (h : SystemInv b guard n s) {handler : LockHandler} {o : LockOp}
    {next : Int32 → LockHandler} {first now : List Action} {real r : Int32}
    (hpc : s.pc i = .running handler (.lock o next) first now)
    (hop : (s.tmi i).op env b (.lock o real) = .ok (some r, t))
    (hfree : (s.tmi i).sei.p = 0 → real = 0 → ∀ m, o.wants? = some m →
      ∀ j, j ≠ i → m ∉ (s.tmi j).locks.held) :
    SystemInv b guard n (s.set i t
      (.advance (s.tmi i).sei.p handler (next r) first now (.lock o r)) s.committed) := by
  obtain ⟨t0, _, hwithin⟩ := (h.running hpc).1.within
  have hnonneg := hwithin.p_nonneg
  obtain ⟨l, hrun, rfl⟩ := Tmi.op_lock_eq_ok.mp hop
  by_cases hp : (s.tmi i).sei.p = 0
  · rw [Pc.advance, if_pos hp]
    rw [hp] at hrun
    exact h.lockFirst hpc hp hrun (hfree hp)
  · rw [Pc.advance, if_neg hp]
    exact h.lockLater hpc (by omega) hrun

theorem SystemInv.switch (h : SystemInv b guard n s) {handler : LockHandler}
    {first now : List Action} (hpc : s.pc i = .running handler .done first now)
    (hcommit : (s.tmi i).seiCommit env b = .ok (.reexecute, t)) :
    SystemInv b guard n (s.set i t (.running handler handler first []) s.committed) := by
  obtain ⟨hundo, hreplays⟩ := h.running hpc
  obtain ⟨t0, _, hwithin⟩ := hundo.within
  obtain ⟨hundo', hlocks, hignore, hp, hmem⟩ := hundo.switch (sized_actionWrites now) hcommit
  have hheld : t.locks.held = (s.tmi i).locks.held := by rw [hlocks]; rfl
  refine h.set ⟨?_, ?_⟩ (by rw [hignore]; rfl) (by rw [hignore]; rfl) ?_ ?_ ?_
  · rw [hheld]
    exact hundo'
  · rw [hp, hlocks]
    exact hreplays.switch hwithin.p_nonneg
  · intro m hm
    exact .inl (hheld ▸ hm)
  · intro byte hown
    exact ⟨hmem byte fun ⟨w, hw, hcov⟩ => hown (hreplays.owns_of_covers hw hcov), rfl⟩
  · intro byte _
    by_cases hb : ∃ w ∈ actionWrites now, w.Covers byte
    · obtain ⟨w, hw, hcov⟩ := hb
      exact .inl (hundo'.mem (hreplays.owns_of_covers hw hcov))
    · refine .inr ⟨?_, hmem byte hb, rfl⟩
      rw [hpc]
      exact hb

theorem SystemInv.commit (h : SystemInv b guard n s) {handler : LockHandler}
    {first now : List Action} {w : World} {k : Nat}
    (hpc : s.pc i = .running handler .done first now)
    (hlast : (s.tmi i).sei.redundancyLevel - 1 ≤ (s.tmi i).sei.p)
    (hcommit : World.Committed env b (s.tmi i).world w) :
    SystemInv b guard n (s.set i ((s.tmi i).committing w) (.leaving k)
      (runWrites (actionWrites now) s.committed)) := by
  obtain ⟨hundo, hreplays⟩ := h.running hpc
  obtain ⟨t0, hbetween, hwithin⟩ := hundo.within
  have hmachine : ((s.tmi i).committing w).machine = s.process.machine :=
    hcommit.machine hundo.calls hundo.frees
  have hkeep : ∀ byte, (¬ ∃ w ∈ actionWrites now, w.Covers byte) →
      runWrites (actionWrites now) s.committed byte = s.committed byte := fun byte hb =>
    runWrites_of_not_covers fun w hw hcov => hb ⟨w, hw, hcov⟩
  refine h.set (hwithin.committed hbetween hlast hcommit) rfl rfl (fun m hm => .inl hm) ?_ ?_
  · intro byte hown
    rw [hmachine]
    exact ⟨rfl, hkeep byte fun ⟨w, hw, hcov⟩ => hown (hreplays.owns_of_covers hw hcov)⟩
  · intro byte _
    rw [hmachine]
    by_cases hb : ∃ w ∈ actionWrites now, w.Covers byte
    · obtain ⟨w, hw, hcov⟩ := hb
      exact .inl (hundo.mem (hreplays.owns_of_covers hw hcov))
    · refine .inr ⟨?_, rfl, hkeep byte hb⟩
      rw [hpc]
      exact hb

/-- The invariant is kept by every step of every thread. -/
theorem SystemInv.step (h : SystemInv b guard n s) (hstep : System.Step env b guard i s s') :
    SystemInv b guard n s' := by
  have hthread := h.threads i
  cases hstep with
  | begin rbp handler hpc => exact h.begin hpc
  | read hpc hv hallowed => exact h.read hpc hv hallowed
  | write hpc hstack hop hallowed => exact h.write hpc hstack hop hallowed
  | lock hpc hop hfree => exact h.lock hpc hop hfree
  | switch hpc hcommit => exact h.switch hpc hcommit
  | commit hpc hlast hcommit => exact h.commit hpc hlast hcommit
  | unlock hpc hunlock =>
    rw [hpc] at hthread
    exact h.set_of_mem hthread rfl rfl (fun m hm => .inl (held_unlockNext hunlock hm))
      (fun byte hb => by rw [hpc] at hb; exact False.elim hb)
  | leave hpc =>
    rw [hpc] at hthread
    obtain ⟨hidle, hclear, htbin, hwts⟩ := hthread
    exact h.set_of_mem
      ⟨hidle, hclear, htbin, hwts, Abuf.empty_clean _, Abuf.empty_clean _, h.ignoreNum⟩ rfl rfl
      (fun m hm => .inl hm) (fun byte hb => by rw [hpc] at hb; exact False.elim hb)

theorem SystemInv.steps (h : SystemInv b guard n s) (hrun : System.Steps env b guard s s') :
    SystemInv b guard n s' := by
  induction hrun with
  | refl => exact h
  | tail _ hstep ih =>
    obtain ⟨i, hstep⟩ := hstep
    exact ih.step hstep

/-! ## Isolation -/

/-- From the end of phase 0 to the end of the last phase, the thread always has a step. -/
theorem SystemInv.exists_step (h : SystemInv b guard n s) {handler rest : LockHandler}
    {first now : List Action} (hpc : s.pc i = .running handler rest first now)
    (hfirst : (s.tmi i).sei.p = 0 → rest = .done)
    (hlast : rest = .done → (s.tmi i).sei.p < (s.tmi i).sei.redundancyLevel - 1) :
    ∃ s', System.Step env b guard i s s' := by
  obtain ⟨hundo, hreplays⟩ := h.running hpc
  obtain ⟨t0, _, hwithin⟩ := hundo.within
  have hnonneg := hwithin.p_nonneg
  cases rest with
  | done =>
    obtain ⟨t, hcommit⟩ := hundo.exists_switch env (sized_actionWrites now) (hlast rfl)
    exact ⟨_, .switch hpc hcommit⟩
  | read ty addr next =>
    exact ⟨_, .read hpc rfl fun hp => LockHandler.noConfusion (hfirst hp)⟩
  | write ty addr value next =>
    have hstack : ¬ (addr + 1 ≤ addr ∧ addr < (s.tmi i).high) := by omega
    obtain ⟨t, hop⟩ := hundo.exists_write env ty value (h.ignoreAddr hstack)
    exact ⟨_, .write hpc hstack hop fun hp => LockHandler.noConfusion (hfirst hp)⟩
  | lock o next =>
    have hp : (s.tmi i).sei.p ≠ 0 := fun hp => LockHandler.noConfusion (hfirst hp)
    obtain ⟨r, l, hrun, _⟩ := hreplays.lockLater (b := b) (by omega) 0
    exact ⟨_, .lock hpc (Tmi.op_lock_eq_ok.mpr ⟨l, hrun, rfl⟩) fun hzero => absurd hzero hp⟩

/-- Thread `i` in a phase of a handler. What the phase has done so far is what a run alone on
the committed memory does, and what phase 0 did. At its end the phase has done all that phase 0
did; and it gets there, as does every phase after it. -/
structure IsolatedPhase (env : Env) (b : Build) (guard : Nat → Guard) (s : System) (i : Nat)
    (rest : LockHandler) (first now : List Action) : Prop where
  alone : RunsOn s.committed now
  repeats : now <+: first
  whole : (s.tmi i).sei.p = 0 ∨ rest = .done → now = first
  continues : ((s.tmi i).sei.p = 0 → rest = .done) →
    (rest = .done → (s.tmi i).sei.p < (s.tmi i).sei.redundancyLevel - 1) →
    ∃ s', System.Step env b guard i s s'

/-- Whatever the interleaving, every phase of every handler is isolated. -/
theorem isolatedPhase_of_steps (hinit : s.Initial b n) (hrun : System.Steps env b guard s s')
    {handler rest : LockHandler} {first now : List Action}
    (hpc : s'.pc i = .running handler rest first now) :
    IsolatedPhase env b guard s' i rest first now := by
  have hstart : SystemInv b guard n s := .initial hinit
  have hinv := hstart.steps hrun
  obtain ⟨_, hreplays⟩ := hinv.running hpc
  have hrepeat := hreplays.repeats
  refine ⟨?_, hrepeat, hreplays.eq_of_done, hinv.exists_step hpc⟩
  obtain ⟨post, hpost⟩ := hrepeat
  exact (runsOn_append.mp (hpost ▸ hreplays.reads)).1

end Systems

/-- A counter of eight bytes protected by mutex 8; everything else belongs to thread 0. -/
def counterGuard (byte : Nat) : Guard := if 64 ≤ byte ∧ byte < 72 then .mutex 8 else .thread 0

/-- Takes the mutex, by `lock` or by `trylock`, and increments the counter. -/
def increment (o : LockOp) : LockHandler :=
  .lock o fun r =>
    if r = 0 then .read .uint64 64 fun v => .write .uint64 64 (v + 1) .done else .done

/-- A run: thread 0 has incremented the counter in phase 0 when thread 1 comes and finds it locked. In
phase 1 thread 0 reads the old value again. Then thread 1 commits, and after it thread 0. -/
theorem increment_run :
    ∃ s s' ts, System.Steps Env.plain (Build.twoWay true false) counterGuard
        (System.init (Build.twoWay true false) fun _ => 0) s ∧
      s.pc 0 = .running (increment (.lock 8)) (.write .uint64 64 1 .done)
        [.lock (.lock 8) 0, .access (.read .uint64 64 0), .access (.write .uint64 64 1)]
        [.lock (.lock 8) 0, .access (.read .uint64 64 0)] ∧
      s.pc 1 = .running (increment (.trylock 8)) .done [.lock (.trylock 8) 16]
        [.lock (.trylock 8) 16] ∧
      System.Run Env.plain (Build.twoWay true false) counterGuard
        (System.init (Build.twoWay true false) fun _ => 0) ts s' ∧
      ts.map Transaction.thread = [1, 0] ∧ ∀ i, ¬ (s'.pc i).Covers 64 := by
  -- with the mutex taken, the counter may be touched
  have hallowed : ∀ a : Access, (∀ byte, a.Touches byte → 64 ≤ byte ∧ byte < 72) →
      ∀ es, System.Allowed counterGuard 0 (.lock (.lock 8) 0 :: es) a := fun a ha es byte hb =>
    .inr ⟨8, if_pos (ha byte hb), List.mem_cons_self⟩
  have h0 : System.Run Env.plain (Build.twoWay true false) counterGuard
      (System.init (Build.twoWay true false) fun _ => 0) [] _ := .start
  have h1 := h0.step (i := 0) (.begin 0 (increment (.lock 8)) rfl)
  have h2 := h1.step (i := 0) (.lock rfl
    (show Tmi.op _ _ _ (.lock (.lock 8) 0) = .ok (some 0, _) from rfl)
    fun _ _ m _ j hj => by rw [System.tmi_set_of_ne hj]; exact Finset.notMem_empty m)
  have h3 := h2.step (i := 0)
    (.read rfl rfl fun _ => hallowed (.read .uint64 64 _) (fun _ hb => hb) [])
  have h4 := h3.step (i := 0) (.write rfl (show ¬ (0 ≤ 64 ∧ 64 < 0) by decide)
    rfl fun _ => hallowed (.write .uint64 64 _) (fun _ hb => hb) _)
  have h5 := h4.step (i := 1) (.begin 0 (increment (.trylock 8)) rfl)
  have h6 := h5.step (i := 1) (.lock rfl
    (show Tmi.op _ _ _ (.lock (.trylock 8) 16) = .ok (some 16, _) from rfl)
    fun _ hreal => absurd hreal (by decide))
  have h7 := h6.step (i := 0) (.switch rfl rfl)
  have h8 := h7.step (i := 0) (.lock rfl
    (show Tmi.op _ _ _ (.lock (.lock 8) 0) = .ok (some 0, _) from rfl)
    fun hp => absurd hp (by decide))
  have h9 := h8.step (i := 0) (.read rfl rfl fun hp => absurd hp (by decide))
  have h10 := h9.step (i := 1) (.switch rfl rfl)
  have h11 := h10.step (i := 1) (.lock rfl
    (show Tmi.op _ _ _ (.lock (.trylock 8) 16) = .ok (some 16, _) from rfl)
    fun hp => absurd hp (by decide))
  have h12 := h11.step (i := 1) (.commit rfl (by decide) (.inl ⟨rfl, rfl⟩))
  have h13 := h12.step (i := 0) (.write rfl (show ¬ (0 ≤ 64 ∧ 64 < 0) by decide)
    rfl fun hp => absurd hp (by decide))
  have h14 := h13.step (i := 0) (.commit rfl (by decide) (.inl ⟨rfl, rfl⟩))
  refine ⟨_, _, _, h9.steps, rfl, rfl, h14, rfl, fun i hi => ?_⟩
  rcases eq_or_ne i 0 with rfl | hzero
  · exact hi
  rcases eq_or_ne i 1 with rfl | hone
  · exact hi
  · simp only [System.pc_set_of_ne hzero, System.pc_set_of_ne hone] at hi
    exact hi

theorem isolatedPhase_increment :
    ∃ s, System.Steps Env.plain (Build.twoWay true false) counterGuard
        (System.init (Build.twoWay true false) fun _ => 0) s ∧
      s.pc 0 = .running (increment (.lock 8)) (.write .uint64 64 1 .done)
        [.lock (.lock 8) 0, .access (.read .uint64 64 0), .access (.write .uint64 64 1)]
        [.lock (.lock 8) 0, .access (.read .uint64 64 0)] ∧
      s.pc 1 = .running (increment (.trylock 8)) .done [.lock (.trylock 8) 16]
        [.lock (.trylock 8) 16] ∧
      IsolatedPhase Env.plain (Build.twoWay true false) counterGuard s 0
        (.write .uint64 64 1 .done)
        [.lock (.lock 8) 0, .access (.read .uint64 64 0), .access (.write .uint64 64 1)]
        [.lock (.lock 8) 0, .access (.read .uint64 64 0)] := by
  have hinit := System.initial_init (Build.twoWay true false) fun _ => 0
  obtain ⟨s, -, -, hsteps, hpc0, hpc1, -⟩ := increment_run
  exact ⟨s, hsteps, hpc0, hpc1, isolatedPhase_of_steps hinit hsteps hpc0⟩

end LibSei
