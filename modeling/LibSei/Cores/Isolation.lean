-- SUMMARY: The CPU isolation manager: the blacklist of cores and the choice of a core to migrate to.
import LibSei.Machine.Exec
import Mathlib.Data.Finset.Card
import Mathlib.Data.Finset.Max

/-!
# Blacklisted cores

A core on which an error was detected is put on a blacklist and never used again. The
manager picks the core a thread is moved to: round robin during recovery, the first core
other than a given one when the phases of a transaction run on different cores. When no core
is left the process exits.
-/

namespace LibSei

open Control

/-- `cpu_isolation_state_t`, without the lock and the statistics. -/
@[ext] structure CpuIsolation where
  blacklist : BitVec 128
  availableCores : BitVec 128
  numCores : Nat
  numBlacklisted : Nat
  rrCursor : Int
  deriving DecidableEq

namespace CpuIsolation

/-- `cpu_isolation_init` as `__sei_init` calls it, with the number of online processors. It lets
128 cores pass, and then shifts by the width of the mask, which C leaves undefined. -/
def init (numCores : Nat) : Exec CpuIsolation := do
  require (0 < numCores) (.fail "cpu_isolation_init: failed to get CPU count" [])
  require (numCores ≤ 128) (.fail "cpu_isolation_init: too many cores (%d), max 128" [numCores])
  inBounds (numCores < 128) "(__uint128_t)1 << num_cores"
  return ⟨0#128, BitVec.twoPow 128 numCores - 1#128, numCores, 0, 0⟩

/-- The common part of the two functions that blacklist a core. -/
def blacklistBit (s : CpuIsolation) (core : Nat) : CpuIsolation :=
  if s.blacklist.getLsbD core then s
  else { s with
    blacklist := s.blacklist ||| BitVec.twoPow 128 core
    numBlacklisted := s.numBlacklisted + 1 }

/-- `cpu_isolation_blacklist_current`, on the core `sched_getcpu` returns. -/
def blacklistCurrent (s : CpuIsolation) (core : Nat) : CpuIsolation := s.blacklistBit core

/-- `cpu_isolation_blacklist_core`. -/
def blacklistCore (s : CpuIsolation) (core : Int) : CpuIsolation :=
  if core < 0 ∨ core ≥ s.numCores then s else s.blacklistBit core.toNat

/-- `cpu_isolation_get_available_count`. -/
def getAvailableCount (s : CpuIsolation) : Int := s.numCores - s.numBlacklisted

/-- `available_mask`. -/
def availableMask (s : CpuIsolation) : BitVec 128 := s.availableCores &&& ~~~s.blacklist

/-- `start`: where the round starts. -/
def roundStart (s : CpuIsolation) : Nat :=
  if s.rrCursor < 0 ∨ s.rrCursor ≥ s.numCores then 0 else s.rrCursor.toNat

/-- `cpu_isolation_get_next_available`; `none` is `-1`. -/
def getNextAvailable (s : CpuIsolation) : Option (Nat × CpuIsolation) :=
  if s.availableMask = 0#128 then none
  else
    match ((List.range s.numCores).map fun i => (s.roundStart + i) % s.numCores).find? fun core =>
        s.availableMask.getLsbD core with
    | some core => some (core, { s with rrCursor := ((core + 1) % s.numCores : Nat) })
    | none => none

/-- `cpu_isolation_migrate_current_thread`: the core the thread is pinned to. -/
def migrateCurrentThread (s : CpuIsolation) : Exec (Nat × CpuIsolation) := do
  require (s.numBlacklisted < s.numCores)
    (.fail "cpu_isolation: all cores blacklisted, exiting process" [])
  match s.getNextAvailable with
  | some r => return r
  | none => throw (.fail "cpu_isolation: no available cores, exiting process" [])

/-- `cpu_isolation_migrate_excluding_core`: the core the thread is pinned to. -/
def migrateExcludingCore (s : CpuIsolation) (exclude : Nat) : Exec Nat := do
  let mask := if exclude < s.numCores then s.availableMask &&& ~~~(BitVec.twoPow 128 exclude)
    else s.availableMask
  require (mask ≠ 0#128)
    (.fail "cpu_isolation: no available cores excluding core %d, exiting process" [exclude])
  match (List.range s.numCores).find? fun i => mask.getLsbD i with
  | some core => return core
  | none => throw (.fail "cpu_isolation: no suitable core found, exiting process" [])

/-- `cpu_isolation_apply_blacklist`: whether a core is left, and the set without the
blacklisted cores. -/
def applyBlacklist (s : CpuIsolation) (cpuset : Finset Nat) : Bool × Finset Nat :=
  let cpuset := cpuset.filter fun i => ¬ (i < s.numCores ∧ s.blacklist.getLsbD i = true)
  (decide (∃ i ∈ cpuset, i < s.numCores), cpuset)

/-- `cpu_isolation_restore_affinity`: the set the thread is given, or `none` for `-1`. -/
def restoreAffinity (s : CpuIsolation) (saved : Finset Nat) : Option (Finset Nat) :=
  let (hasCore, mask) := s.applyBlacklist saved
  if hasCore then some mask else none

/-! ## The set of healthy cores -/

/-- The core is on the blacklist. -/
def Blacklisted (s : CpuIsolation) (core : Nat) : Prop := s.blacklist.getLsbD core = true

instance (s : CpuIsolation) (core : Nat) : Decidable (s.Blacklisted core) :=
  inferInstanceAs (Decidable (_ = true))

/-- The cores that are not blacklisted. -/
def healthy (s : CpuIsolation) : Finset Nat := {c ∈ Finset.range s.numCores | ¬ s.Blacklisted c}

theorem mem_healthy {s : CpuIsolation} {c : Nat} :
    c ∈ s.healthy ↔ c < s.numCores ∧ ¬ s.Blacklisted c := by
  rw [healthy, Finset.mem_filter, Finset.mem_range]

/-- The mask has the existing cores, whatever is blacklisted. -/
structure Masked (s : CpuIsolation) : Prop where
  le_width : s.numCores ≤ 128
  available : ∀ c, s.availableCores.getLsbD c = decide (c < s.numCores)

/-- What `cpu_isolation_init` sets up and every function keeps: the mask has the existing
cores, and `num_blacklisted` counts the blacklisted ones. -/
structure Valid (s : CpuIsolation) : Prop extends Masked s where
  count : s.numBlacklisted + s.healthy.card = s.numCores

variable {s s' : CpuIsolation} {c core : Nat}

/-- The mask of the first `n` cores. -/
theorem getLsbD_twoPow_sub_one {n : Nat} (h : n ≤ 128) (c : Nat) :
    (BitVec.twoPow 128 n - 1#128).getLsbD c = decide (c < n) := by
  have hmask : (BitVec.twoPow 128 n - 1#128).toNat = 2 ^ n - 1 := by
    rcases Nat.lt_or_eq_of_le h with hlt | rfl
    · have hpow : 2 ^ n < 2 ^ 128 := Nat.pow_lt_pow_right (by decide) hlt
      have hpos : 0 < 2 ^ n := Nat.two_pow_pos n
      have htwo : (BitVec.twoPow 128 n).toNat = 2 ^ n := by
        rw [BitVec.toNat_twoPow, Nat.mod_eq_of_lt hpow]
      rw [BitVec.toNat_sub_of_le, htwo]
      · rfl
      · exact BitVec.le_def.mpr (by rw [htwo]; exact hpos)
    · decide
  rw [BitVec.getLsbD, hmask, Nat.testBit_two_pow_sub_one]

theorem valid_init {n : Nat} (h : init n = .ok s) :
    s.Valid ∧ s.numCores = n ∧ 0 < n ∧ ∀ c, ¬ s.Blacklisted c := by
  simp only [init, bind_eq_ok, require_eq_ok, pure_eq_ok, Except.ok.injEq] at h
  obtain ⟨_, hpos, _, hle, _, -, rfl⟩ := h
  have hclear : ∀ c, ¬ Blacklisted ⟨0#128, BitVec.twoPow 128 n - 1#128, n, 0, 0⟩ c := by
    intro c
    simp [Blacklisted]
  refine ⟨⟨⟨hle, getLsbD_twoPow_sub_one hle⟩, ?_⟩, rfl, hpos, hclear⟩
  rw [healthy, Finset.filter_true_of_mem fun c _ => hclear c, Finset.card_range, Nat.zero_add]

theorem Masked.getLsbD_availableMask (h : s.Masked) :
    s.availableMask.getLsbD c = true ↔ c ∈ s.healthy := by
  rw [availableMask, BitVec.getLsbD_and, BitVec.getLsbD_not, h.available, mem_healthy, Blacklisted]
  have hwidth := h.le_width
  grind

/-! ## Blacklisting a core -/

@[simp] theorem blacklistBit_numCores : (s.blacklistBit core).numCores = s.numCores := by
  rw [blacklistBit]
  split <;> rfl

theorem blacklisted_blacklistBit (hcore : core < 128) :
    (s.blacklistBit core).Blacklisted c ↔ s.Blacklisted c ∨ c = core := by
  rw [blacklistBit]
  split
  · next h =>
    refine ⟨.inl, ?_⟩
    rintro (hc | rfl)
    · exact hc
    · exact h
  · rw [Blacklisted, Blacklisted, BitVec.getLsbD_or, Bool.or_eq_true, BitVec.getLsbD_twoPow,
      Bool.and_eq_true, decide_eq_true_eq, decide_eq_true_eq]
    exact or_congr_right ⟨fun h => h.2.symm, fun h => ⟨hcore, h.symm⟩⟩

theorem Blacklisted.blacklistBit (h : s.Blacklisted c) : (s.blacklistBit core).Blacklisted c := by
  rw [CpuIsolation.blacklistBit]
  split
  · exact h
  · rw [Blacklisted, BitVec.getLsbD_or, Bool.or_eq_true]
    exact .inl h

theorem healthy_blacklistBit (hcore : core < 128) :
    (s.blacklistBit core).healthy = s.healthy.erase core := by
  ext c
  rw [Finset.mem_erase, mem_healthy, mem_healthy, blacklistBit_numCores,
    blacklisted_blacklistBit hcore]
  tauto

theorem Valid.blacklistBit (h : s.Valid) (hcore : core < s.numCores) :
    (s.blacklistBit core).Valid := by
  have hwidth : core < 128 := lt_of_lt_of_le hcore h.le_width
  refine ⟨⟨by simpa using h.le_width, ?_⟩, ?_⟩
  · rw [blacklistBit_numCores]
    rw [CpuIsolation.blacklistBit]
    split <;> exact h.available
  · rw [healthy_blacklistBit hwidth, blacklistBit_numCores, ← h.count]
    rw [CpuIsolation.blacklistBit]
    split
    · next hmem =>
      rw [Finset.erase_eq_of_notMem fun hc => (mem_healthy.mp hc).2 hmem]
    · next hmem =>
      have hhealthy : core ∈ s.healthy := mem_healthy.mpr ⟨hcore, hmem⟩
      have hcard := Finset.card_erase_add_one hhealthy
      show s.numBlacklisted + 1 + _ = _
      omega

theorem blacklistCore_of_lt (h : core < s.numCores) :
    s.blacklistCore core = s.blacklistBit core := by
  rw [blacklistCore, if_neg (by omega), Int.toNat_natCast]

/-- Blacklisting a core given by its number, valid or not. -/
theorem blacklistCore_cases (s : CpuIsolation) (core : Int) :
    s.blacklistCore core = s ∨
      ∃ c < s.numCores, core = c ∧ s.blacklistCore core = s.blacklistBit c := by
  by_cases h : core < 0 ∨ core ≥ s.numCores
  · exact .inl (if_pos h)
  · refine .inr ⟨core.toNat, by omega, by omega, if_neg h⟩

/-! ## Choosing a core -/

theorem roundStart_of_lt {k : Nat} (h : k < s.numCores) : roundStart { s with rrCursor := k } = k := by
  have hin : ¬ ((k : Int) < 0 ∨ (k : Int) ≥ s.numCores) := by omega
  exact (if_neg hin).trans (Int.toNat_natCast k)

/-- The core chosen is the first healthy one at or behind the cursor, counted round. -/
theorem Masked.getNextAvailable (h : s.Masked) (hsome : s.healthy.Nonempty) :
    ∃ i < s.numCores, (s.roundStart + i) % s.numCores ∈ s.healthy ∧
      (∀ j < i, (s.roundStart + j) % s.numCores ∉ s.healthy) ∧
      s.getNextAvailable = some ((s.roundStart + i) % s.numCores,
        { s with rrCursor := (((s.roundStart + i) % s.numCores + 1) % s.numCores : Nat) }) := by
  obtain ⟨c, hc⟩ := hsome
  have hlt := (mem_healthy.mp hc).1
  have hmask : s.availableMask ≠ 0#128 := by
    intro hzero
    have hbit := h.getLsbD_availableMask.mpr hc
    simp [hzero] at hbit
  have hstart : s.roundStart < s.numCores := by
    rw [roundStart]
    split <;> omega
  -- The cursor reaches every core within one round.
  have hreach : ∃ i, i < s.numCores ∧ (s.roundStart + i) % s.numCores ∈ s.healthy := by
    refine ⟨(c + s.numCores - s.roundStart) % s.numCores, Nat.mod_lt _ (by omega), ?_⟩
    have hround : s.roundStart + (c + s.numCores - s.roundStart) = c + s.numCores := by omega
    rwa [Nat.add_mod_mod, hround, Nat.add_mod_right, Nat.mod_eq_of_lt hlt]
  obtain ⟨hi, hmem⟩ := Nat.find_spec hreach
  have hmin : ∀ j < Nat.find hreach, (s.roundStart + j) % s.numCores ∉ s.healthy := fun j hj hj' =>
    Nat.find_min hreach hj ⟨by omega, hj'⟩
  refine ⟨Nat.find hreach, hi, hmem, hmin, ?_⟩
  have hfound : ((List.range s.numCores).map fun i => (s.roundStart + i) % s.numCores).find?
      (fun core => s.availableMask.getLsbD core) =
        some ((s.roundStart + Nat.find hreach) % s.numCores) := by
    rw [List.find?_map, List.find?_range_eq_some.mpr ⟨?_, List.mem_range.mpr hi, fun j hj => ?_⟩]
    · rfl
    · exact h.getLsbD_availableMask.mpr hmem
    · rw [Bool.not_eq_true', ← Bool.not_eq_true]
      exact fun hbit => hmin j hj (h.getLsbD_availableMask.mp hbit)
  rw [CpuIsolation.getNextAvailable, if_neg hmask, hfound]

/-- Whatever the state is, a blacklisted core is not chosen, and only the cursor moves. -/
theorem getNextAvailable_eq_some (h : s.getNextAvailable = some (core, s')) :
    ¬ s.Blacklisted core ∧ ∃ cursor, s' = { s with rrCursor := cursor } := by
  simp only [CpuIsolation.getNextAvailable] at h
  split at h
  · cases h
  · split at h
    · next hfound =>
      cases h
      refine ⟨fun hblack => ?_, _, rfl⟩
      have hbit := List.find?_some hfound
      rw [availableMask, BitVec.getLsbD_and, BitVec.getLsbD_not, hblack] at hbit
      simp at hbit
    · cases h

theorem migrateCurrentThread_eq_ok (h : s.migrateCurrentThread = .ok (core, s')) :
    s.getNextAvailable = some (core, s') := by
  simp only [CpuIsolation.migrateCurrentThread, bind_eq_ok] at h
  obtain ⟨_, -, h⟩ := h
  cases hnext : s.getNextAvailable with
  | none =>
    rw [hnext] at h
    cases h
  | some r =>
    rw [hnext] at h
    cases h
    rfl

/-- A thread is moved as long as a healthy core is left, and to a healthy core. -/
theorem Valid.migrateCurrentThread (h : s.Valid) (hsome : s.healthy.Nonempty) :
    ∃ core s', s.migrateCurrentThread = .ok (core, s') ∧ core ∈ s.healthy ∧
      s' = { s with rrCursor := ((core + 1) % s.numCores : Nat) } := by
  obtain ⟨i, -, hcore, -, hnext⟩ := h.toMasked.getNextAvailable hsome
  have hcount : s.numBlacklisted < s.numCores := by
    have hcount := h.count
    have hpos := hsome.card_pos
    omega
  exact ⟨_, _, by rw [CpuIsolation.migrateCurrentThread, require_of hcount, ok_bind, hnext]; rfl,
    hcore, rfl⟩

/-- Without a healthy core the process exits. -/
theorem Valid.migrateCurrentThread_of_empty (h : s.Valid) (hnone : s.healthy = ∅) :
    s.migrateCurrentThread =
      .error (.fail "cpu_isolation: all cores blacklisted, exiting process" []) := by
  have hcount := h.count
  rw [hnone, Finset.card_empty] at hcount
  rw [CpuIsolation.migrateCurrentThread, require_of_not (by omega)]
  rfl

/-- The state after a thread was moved differs in the cursor only. -/
theorem Valid.of_cursor (h : s.Valid) (r : Int) : Valid { s with rrCursor := r } :=
  ⟨⟨h.le_width, h.available⟩, h.count⟩

/-- The mask of the healthy cores other than one. -/
theorem Valid.getLsbD_excluding (h : s.Valid) :
    (if core < s.numCores then s.availableMask &&& ~~~(BitVec.twoPow 128 core)
      else s.availableMask).getLsbD c = true ↔ c ∈ s.healthy.erase core := by
  have hwidth := h.le_width
  have hmask := h.toMasked.getLsbD_availableMask (c := c)
  rw [Finset.mem_erase]
  split
  · rw [BitVec.getLsbD_and, Bool.and_eq_true, hmask, BitVec.getLsbD_not, BitVec.getLsbD_twoPow,
      mem_healthy]
    grind
  · rw [hmask, mem_healthy]
    grind

/-- The thread is moved to a healthy core other than the excluded one if there is one. -/
theorem Valid.migrateExcludingCore (h : s.Valid) (hsome : (s.healthy.erase core).Nonempty) :
    ∃ new, s.migrateExcludingCore core = .ok new ∧ new ∈ s.healthy ∧ new ≠ core := by
  obtain ⟨c, hc⟩ := hsome
  simp only [CpuIsolation.migrateExcludingCore]
  generalize hmask : (if core < s.numCores then s.availableMask &&& ~~~(BitVec.twoPow 128 core)
      else s.availableMask) = mask
  have hbits : ∀ {c}, mask.getLsbD c = true ↔ c ∈ s.healthy.erase core := by
    intro c
    rw [← hmask]
    exact h.getLsbD_excluding
  have hne : mask ≠ 0#128 := by
    intro hzero
    have hbit := hbits.mpr hc
    simp [hzero] at hbit
  have hfound : ((List.range s.numCores).find? fun i => mask.getLsbD i).isSome := by
    rw [List.find?_isSome]
    exact ⟨c, List.mem_range.mpr (mem_healthy.mp (Finset.mem_of_mem_erase hc)).1, hbits.mpr hc⟩
  obtain ⟨new, hnew⟩ := Option.isSome_iff_exists.mp hfound
  obtain ⟨hother, hhealthy⟩ := Finset.mem_erase.mp (hbits.mp (List.find?_some hnew))
  refine ⟨new, ?_, hhealthy, hother⟩
  rw [require_of hne, ok_bind, hnew]
  rfl

/-- Of two healthy cores one is not the core the thread is on. -/
theorem Valid.exists_migrateExcludingCore (h : s.Valid) (htwo : 2 ≤ s.healthy.card) (core : Nat) :
    ∃ new, s.migrateExcludingCore core = .ok new ∧ new ∈ s.healthy ∧ new ≠ core := by
  apply h.migrateExcludingCore
  apply Finset.card_pos.mp
  have hcard := Finset.pred_card_le_card_erase (s := s.healthy) (a := core)
  omega

/-- Wherever the thread is moved, the core is healthy and not the excluded one. -/
theorem Valid.migrateExcludingCore_eq_ok {new : Nat} (h : s.Valid)
    (hnew : s.migrateExcludingCore core = .ok new) : new ∈ s.healthy ∧ new ≠ core := by
  rcases (s.healthy.erase core).eq_empty_or_nonempty with hempty | hsome
  · -- No core is left in the mask.
    simp only [CpuIsolation.migrateExcludingCore, bind_eq_ok, require_eq_ok] at hnew
    obtain ⟨_, hne, -⟩ := hnew
    refine absurd (BitVec.eq_of_getLsbD_eq fun i _ => ?_) hne
    rw [BitVec.getLsbD_zero, ← Bool.not_eq_true, h.getLsbD_excluding, hempty]
    exact Finset.notMem_empty i
  · obtain ⟨new', hok, hhealthy, hother⟩ := h.migrateExcludingCore hsome
    rw [hok] at hnew
    cases hnew
    exact ⟨hhealthy, hother⟩

/-! ## Restoring an affinity set -/

theorem restoreAffinity_eq_some {saved mask : Finset Nat} (hsaved : ∀ c ∈ saved, c < s.numCores)
    (h : s.restoreAffinity saved = some mask) : mask.Nonempty ∧ mask ⊆ s.healthy := by
  simp only [restoreAffinity, applyBlacklist, decide_eq_true_eq] at h
  split at h
  · next hcore =>
    cases h
    obtain ⟨i, hi, -⟩ := hcore
    refine ⟨⟨i, hi⟩, fun c hc => ?_⟩
    obtain ⟨hmem, hclear⟩ := Finset.mem_filter.mp hc
    have hlt := hsaved c hmem
    exact mem_healthy.mpr ⟨hlt, fun hblack => hclear ⟨hlt, hblack⟩⟩
  · exact absurd h (Option.some_ne_none _).symm

end CpuIsolation

end LibSei
