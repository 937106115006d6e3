-- SUMMARY: The masks and counters of the isolation manager along any sequence of calls, and the fairness of the choice of a core.
import LibSei.Control.RoundRobin
import LibSei.Cores.Isolation

/-!
# Which cores are left, and which is next

The manager keeps the blacklisted cores as a mask and as a counter, and two functions with
different checks of their argument add to both. The views agree as long as only cores that exist
are blacklisted. The core a thread is moved to is found by going round the cores from a cursor.
-/

namespace LibSei

open Control

namespace CpuIsolation

/-- The calls of the manager. -/
inductive Call where
  /-- `cpu_isolation_blacklist_current`, with the number `sched_getcpu` returns. -/
  | blacklistCurrent (core : Nat)
  | blacklistCore (core : Int)
  | getNextAvailable
  | migrateCurrentThread

/-- A call, and the core it chooses if it chooses one. A shift by 128 or more has no meaning. -/
def Call.run : Call → CpuIsolation → Exec (Option Nat × CpuIsolation)
  | .blacklistCurrent core, s => do
      inBounds (core < 128) "(__uint128_t)1 << core_id"
      return (none, s.blacklistCurrent core)
  | .blacklistCore core, s => .ok (none, s.blacklistCore core)
  | .getNextAvailable, s => .ok (s.getNextAvailable.elim (none, s) fun r => (some r.1, r.2))
  | .migrateCurrentThread, s => do
      let (core, s) ← s.migrateCurrentThread
      return (some core, s)

variable {s s' : CpuIsolation} {c core n : Nat} {call : Call} {calls : List Call} {r : Option Nat}

/-! ## The views of the blacklist -/

/-- The bits that are set in a mask. -/
def bits (mask : BitVec 128) : Finset Nat := {c ∈ Finset.range 128 | mask.getLsbD c = true}

/-- The cores that can still be used. -/
def usable (s : CpuIsolation) : Finset Nat := bits s.availableCores \ bits s.blacklist

/-- The masks, the counter and the exit say the same. -/
structure Consistent (s : CpuIsolation) : Prop where
  available : (bits s.availableCores).card = s.numCores
  blacklist : bits s.blacklist ⊆ bits s.availableCores
  count : s.numBlacklisted = (bits s.blacklist).card
  getAvailableCount : s.getAvailableCount = s.usable.card
  exit : s.migrateCurrentThread =
    .error (.fail "cpu_isolation: all cores blacklisted, exiting process" []) ↔ s.usable = ∅

/-- The state is consistent along the calls, up to the end or to an exit of the process. -/
def Upholds : List Call → CpuIsolation → Prop
  | [], s => s.Consistent
  | call :: calls, s => s.Consistent ∧ (∀ text, call.run s ≠ .error (.outOfBounds text)) ∧
      ∀ r s', call.run s = .ok (r, s') → Upholds calls s'

/-- Every `cpu_isolation_blacklist_current` that is reached is made on one of the first
`num_cores` cores. -/
def OnCounted : List Call → CpuIsolation → Prop
  | [], _ => True
  | call :: calls, s => (∀ core, call = .blacklistCurrent core → core < s.numCores) ∧
      ∀ r s', call.run s = .ok (r, s') → OnCounted calls s'

/-- No core that does not exist is blacklisted. -/
structure Sound (s : CpuIsolation) : Prop extends Valid s where
  lt_numCores : ∀ c, s.Blacklisted c → c < s.numCores

theorem mem_bits {mask : BitVec 128} : c ∈ bits mask ↔ mask.getLsbD c = true := by
  rw [bits, Finset.mem_filter, Finset.mem_range]
  exact ⟨fun h => h.2, fun h => ⟨BitVec.lt_of_getLsbD h, h⟩⟩

theorem Masked.bits_availableCores (h : s.Masked) : bits s.availableCores = Finset.range s.numCores := by
  ext c
  rw [mem_bits, h.available, decide_eq_true_eq, Finset.mem_range]

theorem Masked.usable (h : s.Masked) : s.usable = s.healthy := by
  ext c
  rw [CpuIsolation.usable, Finset.mem_sdiff, h.bits_availableCores, Finset.mem_range, mem_bits,
    mem_healthy, Blacklisted]

theorem Sound.bits_blacklist (h : s.Sound) : bits s.blacklist = Finset.range s.numCores \ s.healthy := by
  ext c
  have hlt := h.lt_numCores c
  rw [mem_bits, Finset.mem_sdiff, Finset.mem_range, mem_healthy]
  rw [Blacklisted] at hlt ⊢
  tauto

theorem Sound.consistent (h : s.Sound) : s.Consistent := by
  have hcount := h.count
  have hsub : s.healthy ⊆ Finset.range s.numCores := Finset.filter_subset _ _
  refine ⟨?_, ?_, ?_, ?_, ?_⟩
  · rw [h.toMasked.bits_availableCores, Finset.card_range]
  · rw [h.bits_blacklist, h.toMasked.bits_availableCores]
    exact Finset.sdiff_subset
  · rw [h.bits_blacklist, Finset.card_sdiff_of_subset hsub, Finset.card_range]
    omega
  · rw [CpuIsolation.getAvailableCount, h.toMasked.usable]
    omega
  · rw [h.toMasked.usable]
    refine ⟨fun hexit => Finset.not_nonempty_iff_eq_empty.mp fun hsome => ?_,
      h.migrateCurrentThread_of_empty⟩
    obtain ⟨core, s', hok, -⟩ := h.migrateCurrentThread hsome
    rw [hok] at hexit
    cases hexit

theorem sound_init (h : init n = .ok s) : s.Sound ∧ s.numCores = n :=
  have ⟨hvalid, hcores, _, hclear⟩ := valid_init h
  ⟨⟨hvalid, fun c hc => absurd hc (hclear c)⟩, hcores⟩

theorem Sound.of_cursor (h : s.Sound) (cursor : Int) : Sound { s with rrCursor := cursor } :=
  ⟨h.toValid.of_cursor cursor, h.lt_numCores⟩

theorem Sound.blacklistBit (h : s.Sound) (hcore : core < s.numCores) : (s.blacklistBit core).Sound := by
  refine ⟨h.toValid.blacklistBit hcore, fun c hc => ?_⟩
  rw [blacklistBit_numCores]
  rcases (blacklisted_blacklistBit (lt_of_lt_of_le hcore h.le_width)).mp hc with hc | rfl
  · exact h.lt_numCores c hc
  · exact hcore

theorem Sound.getNextAvailable (h : s.Sound) (hnext : s.getNextAvailable = some (core, s')) :
    s'.Sound := by
  obtain ⟨-, cursor, rfl⟩ := getNextAvailable_eq_some hnext
  exact h.of_cursor cursor

/-- A call that is made on a core that exists keeps the views together. -/
theorem Sound.run (h : s.Sound) (hcore : ∀ core, call = .blacklistCurrent core → core < s.numCores) :
    (∀ text, call.run s ≠ .error (.outOfBounds text)) ∧
      ∀ r s', call.run s = .ok (r, s') → s'.Sound := by
  cases call with
  | blacklistCurrent core =>
    have hlt := hcore core rfl
    have hrun : (Call.blacklistCurrent core).run s = .ok (none, s.blacklistBit core) := by
      rw [Call.run, inBounds_of (lt_of_lt_of_le hlt h.le_width)]
      rfl
    rw [hrun]
    refine ⟨fun text => nofun, fun r s' hok => ?_⟩
    cases hok
    exact h.blacklistBit hlt
  | blacklistCore core =>
    refine ⟨fun text => nofun, fun r s' hok => ?_⟩
    cases hok
    rcases s.blacklistCore_cases core with hsame | ⟨c, hc, -, hbit⟩
    · rwa [hsame]
    · rw [hbit]
      exact h.blacklistBit hc
  | getNextAvailable =>
    refine ⟨fun text => nofun, fun r s' hok => ?_⟩
    rw [Call.run] at hok
    cases hnext : s.getNextAvailable with
    | none =>
      rw [hnext] at hok
      cases hok
      exact h
    | some next =>
      rw [hnext] at hok
      cases hok
      exact h.getNextAvailable hnext
  | migrateCurrentThread =>
    rw [Call.run]
    rcases s.healthy.eq_empty_or_nonempty with hnone | hsome
    · rw [h.migrateCurrentThread_of_empty hnone]
      exact ⟨fun text => nofun, fun r s' => nofun⟩
    · obtain ⟨core, s1, hok, -, rfl⟩ := h.migrateCurrentThread hsome
      rw [hok]
      refine ⟨fun text => nofun, fun r s' hok' => ?_⟩
      cases hok'
      exact h.of_cursor _

/-- A core beyond those that exist is blacklisted all the same. -/
theorem Masked.not_consistent_blacklistBit (h : s.Masked) (hcore : s.numCores ≤ core)
    (hwidth : core < 128) : ¬ (s.blacklistBit core).Consistent := by
  intro hcons
  have hblack : core ∈ bits (s.blacklistBit core).blacklist :=
    mem_bits.mpr ((blacklisted_blacklistBit hwidth).mpr (.inr rfl))
  have havail : (s.blacklistBit core).availableCores = s.availableCores := by
    rw [blacklistBit]
    split <;> rfl
  have hmem := hcons.blacklist hblack
  rw [havail, h.bits_availableCores, Finset.mem_range] at hmem
  omega

theorem Upholds.consistent (h : Upholds calls s) : s.Consistent := by
  cases calls with
  | nil => exact h
  | cons call calls => exact h.1

theorem Sound.upholds_iff (h : s.Sound) : Upholds calls s ↔ OnCounted calls s := by
  induction calls generalizing s with
  | nil => exact ⟨fun _ => trivial, fun _ => h.consistent⟩
  | cons call calls ih =>
    constructor
    · rintro ⟨-, hdefined, hrest⟩
      have hcore : ∀ core, call = .blacklistCurrent core → core < s.numCores := by
        rintro core rfl
        by_contra hge
        by_cases hwidth : core < 128
        · have hrun : (Call.blacklistCurrent core).run s = .ok (none, s.blacklistBit core) := by
            rw [Call.run, inBounds_of hwidth]
            rfl
          exact h.toMasked.not_consistent_blacklistBit (by omega) hwidth (hrest _ _ hrun).consistent
        · exact hdefined _ (by rw [Call.run, inBounds, require_of_not hwidth]; rfl)
      exact ⟨hcore, fun r s' hrun => (ih ((h.run hcore).2 r s' hrun)).mp (hrest r s' hrun)⟩
    · rintro ⟨hcore, hrest⟩
      obtain ⟨hdefined, hsound⟩ := h.run hcore
      exact ⟨h.consistent, hdefined, fun r s' hrun => (ih (hsound r s' hrun)).mpr (hrest r s' hrun)⟩

/-- The views agree along every sequence of calls exactly if there are fewer cores than the mask
is wide and every core reported as the current one is among them. -/
theorem init_upholds_iff (numCores : Nat) (hpos : 1 ≤ numCores) (hle : numCores ≤ 128)
    (calls : List Call) :
    (∃ s, init numCores = .ok s ∧ Upholds calls s) ↔
      numCores < 128 ∧ ∀ s, init numCores = .ok s → OnCounted calls s := by
  constructor
  · rintro ⟨s, hinit, hupholds⟩
    refine ⟨?_, fun s' hinit' => ?_⟩
    · simp only [init, bind_eq_ok, inBounds_eq_ok] at hinit
      obtain ⟨_, -, _, -, _, hlt, -⟩ := hinit
      exact hlt
    · cases hinit.symm.trans hinit'
      exact (sound_init hinit).1.upholds_iff.mp hupholds
  · rintro ⟨hlt, hcounted⟩
    have hinit : init numCores = .ok ⟨0#128, BitVec.twoPow 128 numCores - 1#128, numCores, 0, 0⟩ := by
      rw [init, require_of (Nat.zero_lt_of_lt hpos), require_of hle, inBounds_of hlt]
      rfl
    exact ⟨_, hinit, (sound_init hinit).1.upholds_iff.mpr (hcounted _ hinit)⟩

/-- Two cores, one of them blacklisted, and the other chosen. -/
theorem init_upholds_twoCores :
    ∃ s, init 2 = .ok s ∧ Upholds [.blacklistCurrent 1, .migrateCurrentThread] s := by
  refine (init_upholds_iff 2 (by decide) (by decide) _).mpr ⟨by decide, fun s hinit => ?_⟩
  have hcores := (sound_init hinit).2
  refine ⟨fun core hcore => ?_, fun r s' _ => ⟨fun core => nofun, fun _ _ _ => trivial⟩⟩
  cases hcore
  omega

/-- On a machine with two cores online, numbered 2 and 3, both errors blacklist a core that is not
counted, and the process exits with both counted cores usable. With 128 cores the initial mask has
no meaning. -/
theorem blacklistCurrent_uncounted :
    (∃ s1 s2 s3, init 2 = .ok s1 ∧ (Call.blacklistCurrent 2).run s1 = .ok (none, s2) ∧
      (Call.blacklistCurrent 3).run s2 = .ok (none, s3) ∧
      bits s3.blacklist = {2, 3} ∧ bits s3.availableCores = {0, 1} ∧
      s3.getAvailableCount = 0 ∧ s3.usable = {0, 1} ∧
      s3.migrateCurrentThread =
        .error (.fail "cpu_isolation: all cores blacklisted, exiting process" [])) ∧
    init 128 = .error (.outOfBounds "(__uint128_t)1 << num_cores") :=
  ⟨⟨_, _, _, rfl, rfl, rfl, by decide +kernel, by decide +kernel, rfl, by decide +kernel, rfl⟩, rfl⟩

/-! ## Going round the cores -/

/-- What the call of `cpu_isolation_get_next_available` behind `i` others returns. -/
def nthNext : Nat → CpuIsolation → Option Nat
  | 0, s => s.getNextAvailable.map Prod.fst
  | i + 1, s => s.getNextAvailable.bind fun r => nthNext i r.2

/-- The calls visit the healthy cores in turn. -/
theorem Masked.nthNext_eq (h : s.Masked) (hsome : s.healthy.Nonempty) (i : Nat) :
    nthNext i s = some (RoundRobin.visit s.numCores s.healthy s.roundStart i) := by
  have hlt : ∀ c ∈ s.healthy, c < s.numCores := fun c hc => (mem_healthy.mp hc).1
  induction i generalizing s with
  | zero =>
    obtain ⟨d, -, hmem, hbefore, hnext⟩ := h.getNextAvailable hsome
    rw [nthNext, hnext, (RoundRobin.visit_of_scan hlt hsome hmem hbefore).1]
    rfl
  | succ i ih =>
    obtain ⟨d, -, hmem, hbefore, hnext⟩ := h.getNextAvailable hsome
    have hcursor : ((s.roundStart + d) % s.numCores + 1) % s.numCores < s.numCores :=
      Nat.mod_lt _ (Nat.zero_lt_of_lt (hlt _ hmem))
    -- The cursor is behind the core returned, and nothing else has changed.
    have hrest := ih (s := { s with
      rrCursor := (((s.roundStart + d) % s.numCores + 1) % s.numCores : Nat) })
      ⟨h.le_width, h.available⟩ hsome hlt
    rw [roundStart_of_lt hcursor] at hrest
    rw [nthNext, hnext, Option.bind_some, hrest,
      (RoundRobin.visit_of_scan hlt hsome hmem hbefore).2]
    rfl

/-- A blacklisted core stays on the blacklist and is not chosen. -/
theorem blacklisted_run (h : s.Blacklisted c) (hrun : call.run s = .ok (r, s')) :
    s'.Blacklisted c ∧ r ≠ some c := by
  have hchosen : ∀ {core s'}, s.getNextAvailable = some (core, s') →
      s'.Blacklisted c ∧ some core ≠ some c := by
    intro core s' hnext
    obtain ⟨hclear, cursor, rfl⟩ := getNextAvailable_eq_some hnext
    refine ⟨h, fun heq => ?_⟩
    cases heq
    exact hclear h
  have hnone : (none : Option Nat) ≠ some c := (Option.some_ne_none c).symm
  cases call with
  | blacklistCurrent core =>
    simp only [Call.run, bind_eq_ok, inBounds_eq_ok] at hrun
    obtain ⟨_, -, ⟨⟩⟩ := hrun
    exact ⟨h.blacklistBit, hnone⟩
  | blacklistCore core =>
    cases hrun
    rcases s.blacklistCore_cases core with hsame | ⟨c', -, -, hbit⟩
    · exact ⟨hsame.symm ▸ h, hnone⟩
    · exact ⟨hbit.symm ▸ h.blacklistBit, hnone⟩
  | getNextAvailable =>
    rw [Call.run] at hrun
    cases hnext : s.getNextAvailable with
    | none =>
      rw [hnext] at hrun
      cases hrun
      exact ⟨h, hnone⟩
    | some next =>
      rw [hnext] at hrun
      cases hrun
      exact hchosen hnext
  | migrateCurrentThread =>
    simp only [Call.run, bind_eq_ok] at hrun
    obtain ⟨⟨core, s1⟩, hok, ⟨⟩⟩ := hrun
    exact hchosen (migrateCurrentThread_eq_ok hok)

theorem blacklisted_runEach {rs : List (Option Nat)} (h : s.Blacklisted c)
    (hrun : runEach Call.run calls s = .ok (rs, s')) : some c ∉ rs := by
  induction calls generalizing s rs with
  | nil =>
    cases hrun
    exact List.not_mem_nil
  | cons call calls ih =>
    obtain ⟨r, s1, rs1, hcall, hrest, rfl⟩ := runEach_cons_eq_ok.mp hrun
    obtain ⟨hblack, hne⟩ := blacklisted_run h hcall
    rw [List.mem_cons]
    rintro (heq | hmem)
    · exact hne heq.symm
    · exact ih hblack hrest hmem

/-- With any blacklist that leaves a core and any cursor, every call returns a usable core, as many
calls as there are usable cores return each of them once, and then they begin again. A core that is
blacklisted is not returned by any later call. -/
theorem getNextAvailable_fair (s : CpuIsolation) (hcores : s.numCores ≤ 127)
    (havailable : s.availableCores = BitVec.twoPow 128 s.numCores - 1#128)
    (hsome : s.usable.Nonempty) :
    (∀ i, ∃ c ∈ s.usable, nthNext i s = some c) ∧
    (∀ i, ∀ c ∈ s.usable, ∃! j, j < s.usable.card ∧ nthNext (i + j) s = some c) ∧
    (∀ i, nthNext (i + s.usable.card) s = nthNext i s) ∧
    ∀ core calls rs s', core < s.numCores →
      runEach Call.run calls (s.blacklistCore core) = .ok (rs, s') ∨
        runEach Call.run calls (s.blacklistCurrent core) = .ok (rs, s') → some core ∉ rs := by
  have hmasked : s.Masked := by
    refine ⟨by omega, fun c => ?_⟩
    rw [havailable, getLsbD_twoPow_sub_one (by omega)]
  rw [hmasked.usable] at hsome ⊢
  have hlt : ∀ c ∈ s.healthy, c < s.numCores := fun c hc => (mem_healthy.mp hc).1
  simp only [hmasked.nthNext_eq hsome, Option.some.injEq]
  refine ⟨fun i => ?_, fun i c hc => ?_, fun i => ?_, fun core calls rs s' hcore hrun => ?_⟩
  · exact ⟨_, RoundRobin.visit_mem hlt hsome _ _, rfl⟩
  · exact RoundRobin.existsUnique_visit hlt hsome _ i hc
  · exact RoundRobin.visit_add_card hlt hsome _ i
  · have hblack : (s.blacklistBit core).Blacklisted core :=
      (blacklisted_blacklistBit (by omega)).mpr (.inr rfl)
    rw [blacklistCore_of_lt hcore, blacklistCurrent, or_self] at hrun
    exact blacklisted_runEach hblack hrun

/-- Four cores, core 1 blacklisted, and a cursor outside the cores. -/
theorem getNextAvailable_fair_fourCores :
    [nthNext 0, nthNext 1, nthNext 2].map (· ⟨2#128, 15#128, 4, 1, -7⟩) = [some 0, some 2, some 3] ∧
    ∀ i, nthNext (i + 3) ⟨2#128, 15#128, 4, 1, -7⟩ = nthNext i ⟨2#128, 15#128, 4, 1, -7⟩ := by
  have husable : usable ⟨2#128, 15#128, 4, 1, -7⟩ = {0, 2, 3} := by decide +kernel
  have hfair := getNextAvailable_fair ⟨2#128, 15#128, 4, 1, -7⟩ (by decide) (by decide)
    (husable ▸ ⟨0, by decide⟩)
  rw [husable] at hfair
  exact ⟨rfl, hfair.2.2.1⟩

end CpuIsolation

end LibSei
