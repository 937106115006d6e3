-- SUMMARY: When the commit of redundant phases on hash-table copy-on-write buffers goes through, and what it compares.
import LibSei.Cow.Traversal

/-!
# Commit with copy-on-write buffers

In builds without `COW_APPEND_ONLY`, `sei_commit` compares the buffer of phase 0 with that of
every other phase by `cow_apply_cmp`, which empties both buffers it is given. The results here
say for which numbers of phases this accepts identical phases and rejects different ones, and
what exactly is compared when there are two.
-/

namespace LibSei

open Memory Control

namespace CowSei

variable {α : Type} {b : Build} {mode : CowMode} {room : CowSei → Bool} {m : Mem} {s s' : CowSei} {n : Nat}
  {ws : List Write}

/-- Before the first phase of a transaction with `n` phases. -/
structure Begun (n : Nat) (s : CowSei) : Prop where
  p : s.p = 0
  level : s.redundancyLevel = n
  ready : ∀ q < n, (s.cow q).Ready

theorem Begun.before (h : Begun n s) : Before s.mem n (fun _ => []) 0 s :=
  ⟨h.p, h.level, rfl, fun _ hq => absurd hq (by omega), fun q _ hq => h.ready q hq⟩

/-! ## Identical phases -/

/-- All phases of a transaction on memory `m` have made the writes `ws`. -/
structure Ended (mode : CowMode) (m : Mem) (n : Nat) (ws : List Write) (s : CowSei) : Prop where
  level : s.redundancyLevel = n
  keys : ∀ q < n, ∀ i < cowMax, (s.cow q).keys i = wordKeys ws i
  first : Logged m ws (s.cow 0)
  wt : mode = .wt → s.mem = runWrites ws m
  wb : mode = .wb → s.mem = m ∧ ∀ q < n, Logged m ws (s.cow q)

theorem InPhase.ended {s1 : CowSei} (h2 : 2 ≤ n) (hbefore : Before m n (fun _ => ws) (n - 1) s1)
    (h : InPhase mode m (n - 1) s1 ws s) : Ended mode m n ws s := by
  have hlogged : ∀ q < n - 1, Logged m ws (s.cow q) := fun q hq => by
    rw [h.others q (by omega)]
    exact hbefore.logged q hq
  have hcases : ∀ q < n, q < n - 1 ∨ q = n - 1 := fun q hq => by omega
  have hmem := h.mem
  have hview := h.view
  refine ⟨h.level.trans hbefore.level, fun q hq i hi => ?_, hlogged 0 (by omega), fun hwt => ?_,
    fun hwb => ?_⟩
  · rcases hcases q hq with hq | rfl
    · exact (hlogged q hq).keys i hi
    · exact h.keys i hi
  · rwa [if_pos hwt] at hmem
  · have hnot : mode ≠ .wt := by rw [hwb]; decide
    rw [if_neg hnot] at hmem hview
    rw [hmem] at hview
    refine ⟨hmem, fun q hq => ?_⟩
    rcases hcases q hq with hq | rfl
    · exact hlogged q hq
    · exact ⟨h.wellFormed, h.keys, hview⟩

theorem Ended.first_matches (h : Ended mode m n ws s) (h2 : 2 ≤ n) :
    ∀ j < cowMax, Cow.Matches mode s.mem ((s.cow 0).table j) ((s.cow 1).table j) := fun _ hj =>
  (h.first.matches_iff (h.keys 1 (by omega)) h.wt (fun hwb => (h.wb hwb).2 1 (by omega)) hj).mpr
    ⟨rfl, fun _ _ => rfl⟩

theorem Ended.comparedMem_eq (h : Ended mode m n ws s) :
    Cow.comparedMem mode (s.cow 0) cowMax s.mem = runWrites ws m := by
  rw [Cow.comparedMem]
  split
  · next hwt => exact h.wt hwt
  · next hnot =>
    have hwb : mode = .wb := by cases mode <;> first | rfl | exact absurd rfl hnot
    rw [Cow.settle_all h.first.wellFormed.hashed, (h.wb hwb).1, h.first.view]

/-- The buffer of a phase that has written something is not empty. -/
theorem Ended.empty_iff (h : Ended mode m n ws s) {q : Nat} (hq : q < n) :
    (s.cow q).Empty ↔ ws = [] := by
  constructor
  · intro hempty
    by_contra hne
    obtain ⟨w, hw⟩ := List.exists_mem_of_ne_nil ws hne
    have hkey := mem_wordKeys hw
    rw [← h.keys q hq _ (Cow.hash_lt _), hempty.keys (Cow.hash_lt _)] at hkey
    cases hkey
  · rintro rfl i hi
    exact Cow.keys_eq_nil.mp (h.keys q hq i hi)

/-- The comparisons accept identical phases exactly if there are two of them or nothing was
written. -/
theorem Ended.commitCow_iff (h : Ended mode m n ws s) (h2 : 2 ≤ n) (hn : n ≤ maxRedundancy) :
    (∃ s', s.commitCow mode = .ok s' ∧ s'.mem = runWrites ws m ∧ ∀ q < n, (s'.cow q).Empty) ↔
      n = 2 ∨ ws = [] := by
  have hok : (∃ s', s.commitCow mode = .ok s') ↔
      (∀ j < cowMax, Cow.Matches mode s.mem ((s.cow 0).table j) ((s.cow 1).table j)) ∧
        ∀ q, 2 ≤ q → q < s.redundancyLevel → (s.cow q).Empty :=
    commitCow_ok_iff (h.level ▸ h2) (h.level ▸ hn)
  constructor
  · rintro ⟨s', hs', -⟩
    rcases Nat.lt_or_ge 2 n with hlt | hge
    · have hempty := (hok.mp ⟨s', hs'⟩).2 2 (le_refl 2) (h.level ▸ hlt)
      exact .inr ((h.empty_iff hlt).mp hempty)
    · exact .inl (by omega)
  · intro hcase
    obtain ⟨s', hs'⟩ := hok.mpr ⟨h.first_matches h2, fun q hq hlt => by
      rw [h.level] at hlt
      exact (h.empty_iff hlt).mpr (hcase.resolve_left (by omega))⟩
    obtain ⟨hempty, hmem⟩ := commitCow_spec (h.level ▸ h2) (h.level ▸ hn) hs'
    exact ⟨s', hs', hmem.trans h.comparedMem_eq, h.level ▸ hempty⟩

/-! ## Different phases -/

/-- The buffers differ in their keys or, in `COW_WB`, in their values. -/
def Differ (mode : CowMode) (c c1 : Cow) : Prop :=
  ∃ i < cowMax, c.keys i ≠ c1.keys i ∨
    mode = .wb ∧ (c.table i).map CowEntry.wval ≠ (c1.table i).map CowEntry.wval

theorem not_differ_of_matches {mem : Mem} {c c1 : Cow}
    (h : ∀ j < cowMax, Cow.Matches mode mem (c.table j) (c1.table j)) : ¬ Differ mode c c1 := by
  rintro ⟨i, hi, hkeys | ⟨hwb, hvals⟩⟩
  · exact hkeys (h i hi).1
  · have hvalues := (h i hi).2
    rw [if_neg (by rw [hwb]; decide)] at hvalues
    exact hvals hvalues

/-- An empty buffer differs from every other. -/
theorem differ_empty_iff {c c1 : Cow} (h : c1.Empty) : Differ mode c c1 ↔ ¬ c.Empty := by
  constructor
  · rintro ⟨i, hi, hdiff⟩ hempty
    rcases hdiff with hkeys | ⟨-, hvals⟩
    · exact hkeys ((hempty.keys hi).trans (h.keys hi).symm)
    · exact hvals (by rw [hempty i hi, h i hi])
  · intro hne
    by_contra hsame
    refine hne fun i hi => Cow.keys_eq_nil.mp ?_
    by_contra hkeys
    exact hsame ⟨i, hi, .inl fun heq => hkeys (heq.trans (h.keys hi))⟩

/-- Any difference to the buffer of phase 0 is noticed exactly if there are two phases, or phase 0
has an empty buffer, or the first two phases do not match, or some phase behind them has a
buffer that is not empty. -/
theorem differ_noticed_iff (h2 : 2 ≤ s.redundancyLevel) (hmax : s.redundancyLevel ≤ maxRedundancy) :
    ((∃ q, 1 ≤ q ∧ q < s.redundancyLevel ∧ Differ mode (s.cow 0) (s.cow q)) →
        Exec.Fails (s.commitCow mode)) ↔
      s.redundancyLevel = 2 ∨ (s.cow 0).Empty ∨
        (¬ ∀ j < cowMax, Cow.Matches mode s.mem ((s.cow 0).table j) ((s.cow 1).table j)) ∨
        ∃ q, 2 ≤ q ∧ q < s.redundancyLevel ∧ ¬ (s.cow q).Empty := by
  rw [commitCow_fails_iff h2 hmax, commitCow_ok_iff h2 hmax]
  constructor
  · intro hnoticed
    by_contra hnone
    push Not at hnone
    obtain ⟨hlevel, hfirst, hmatch, hempty⟩ := hnone
    have h2empty := hempty 2 (le_refl 2) (by omega)
    exact hnoticed ⟨2, by omega, by omega, (differ_empty_iff h2empty).mpr hfirst⟩ ⟨hmatch, hempty⟩
  · rintro hcase ⟨q, hq, hlt, hdiff⟩ ⟨hmatch, hempty⟩
    have hfirst := not_differ_of_matches hmatch
    rcases Nat.lt_or_ge 1 q with hq1 | hq1
    · have hne := (differ_empty_iff (hempty q (by omega) hlt)).mp hdiff
      rcases hcase with hlevel | hzero | hnot | ⟨q', hq', hlt', hne'⟩
      · omega
      · exact hne hzero
      · exact hnot hmatch
      · exact hne' (hempty q' hq' hlt')
    · obtain rfl : q = 1 := by omega
      exact hfirst hdiff

/-! ## The commit of redundant phases -/

theorem commitCow_redundant_iff (b : Build) (mode : CowMode) (room : CowSei → Bool) (h2 : 2 ≤ n)
    (hn : n ≤ b.redundancy) :
    (∀ (h : Prog UIntTy α) (s s' : CowSei), Begun n s →
      (∀ w ∈ h.issued (access b mode room) s, w.Aligned) →
      phases b mode room (fun _ => h) s = .ok s' →
      ((∃ s'', s'.commitCow mode = .ok s'' ∧
          s''.mem = runWrites (h.issued (access b mode room) s) s.mem ∧
          ∀ q < n, (s''.cow q).Empty) ↔
        n = 2 ∨ h.issued (access b mode room) s = [])) ∧
    (∀ s : CowSei, s.redundancyLevel = n →
      (((∃ q, 1 ≤ q ∧ q < n ∧ Differ mode (s.cow 0) (s.cow q)) → Exec.Fails (s.commitCow mode)) ↔
        n = 2 ∨ (s.cow 0).Empty ∨
          (¬ ∀ j < cowMax, Cow.Matches mode s.mem ((s.cow 0).table j) ((s.cow 1).table j)) ∨
          ∃ q, 2 ≤ q ∧ q < n ∧ ¬ (s.cow q).Empty)) := by
  have hmax : n ≤ maxRedundancy := hn.trans b.le_max
  refine ⟨fun h s s' hbegun ha hrun => ?_, fun s hlevel => ?_⟩
  · obtain ⟨s1, hbefore, hphase⟩ := hbegun.before.phases h2 hmax ha hrun
    exact (hphase.ended h2 hbefore).commitCow_iff h2 hmax
  · subst hlevel
    exact differ_noticed_iff h2 hmax

/-- A thread between transactions of `n` phases, with fresh buffers and zeroed memory. -/
def fresh (n : Nat) : CowSei := ⟨0, n, fun _ => Cow.init 128, fun _ => 0⟩

theorem begun_fresh (n : Nat) : Begun n (fresh n) :=
  ⟨rfl, rfl, fun _ _ => Cow.ready_init (by decide)⟩

/-- Two phases that write one byte. -/
theorem commitCow_redundant_oneByte :
    ∃ s' s'', phases (Build.twoWay true false) .wb (fun _ => true) (fun _ => Prog.put .uint8 64 1)
        (fresh 2) = .ok s' ∧
      s'.commitCow .wb = .ok s'' ∧ s''.mem 64 = 1 ∧ ∀ q < 2, (s''.cow q).Empty := by
  obtain ⟨s', hrun⟩ : ∃ s', phases (Build.twoWay true false) .wb (fun _ => true)
      (fun _ => Prog.put .uint8 64 1) (fresh 2) = .ok s' := ⟨_, rfl⟩
  have hiff := (commitCow_redundant_iff (α := Unit) (n := 2) (Build.twoWay true false) .wb
    (fun _ => true) (le_refl 2) (le_refl 2)).1 (Prog.put .uint8 64 1) (fresh 2) s' (begun_fresh 2)
    (fun w hw => by rw [List.mem_singleton.mp hw]; rfl) hrun
  obtain ⟨s'', hcommit, hmem, hempty⟩ := hiff.mpr (.inl rfl)
  refine ⟨s', s'', hrun, hcommit, ?_, hempty⟩
  rw [hmem]
  rfl

/-- A buffer with an entry for the word at 64. -/
def oneEntry : Cow := ⟨Function.update (fun _ => []) 8 [⟨8, AbufWord.zero⟩], fun _ => 128⟩

theorem fails_oneByte_threePhases (mode : CowMode) :
    ∃ s', phases (Build.threeWay true false) mode (fun _ => true) (fun _ => Prog.put .uint8 64 1)
        (fresh 3) = .ok s' ∧ Exec.Fails (s'.commitCow mode) := by
  obtain ⟨s', hrun, hlevel, hlen⟩ : ∃ s', phases (Build.threeWay true false) mode (fun _ => true)
      (fun _ => Prog.put .uint8 64 1) (fresh 3) = .ok s' ∧ s'.redundancyLevel = 3 ∧
      ((s'.cow 2).table 8).length = 1 := by
    cases mode
    · exact ⟨_, rfl, rfl, rfl⟩
    · exact ⟨_, rfl, rfl, rfl⟩
  refine ⟨s', hrun, (commitCow_fails_iff (by omega) (by rw [hlevel]; decide)).mpr fun hok => ?_⟩
  have hempty := ((commitCow_ok_iff (by omega) (by rw [hlevel]; decide)).mp hok).2 2 (le_refl 2)
    (by omega)
  rw [hempty 8 (by decide)] at hlen
  cases hlen

/-- Phases 0 and 1 have an entry for the word at 64, phase 2 has none. -/
def withoutThird : CowSei :=
  { fresh 3 with cow := fun q => if q < 2 then oneEntry else Cow.init 128 }

theorem commitCow_withoutThird (mode : CowMode) : ∃ s', withoutThird.commitCow mode = .ok s' := by
  refine (commitCow_ok_iff (by decide) (by decide)).mpr ⟨fun j hj => ⟨rfl, ?_⟩, fun q hq hlt => ?_⟩
  · show if mode = .wt then ∀ e ∈ oneEntry.table j, e.wval = load (fun _ => 0) e.waddr 8
      else (oneEntry.table j).map CowEntry.wval = (oneEntry.table j).map CowEntry.wval
    split
    · intro e he
      by_cases hj8 : j = 8
      · subst hj8
        obtain rfl := List.mem_singleton.mp he
        rfl
      · have hnil : oneEntry.table j = [] := Function.update_of_ne hj8 _ fun _ => []
        rw [hnil] at he
        cases he
    · rfl
  · show (if q < 2 then oneEntry else Cow.init 128).Empty
    rw [if_neg (by omega)]
    exact Cow.empty_init 128

/-- Three phases that write one byte fail. When phase 2 has written nothing, although the others
have, the commit goes through. -/
theorem commitCow_threePhases :
    ((∃ s', phases (Build.threeWay true false) .wt (fun _ => true) (fun _ => Prog.put .uint8 64 1)
        (fresh 3) = .ok s' ∧ Exec.Fails (s'.commitCow .wt)) ∧
      ∃ s', phases (Build.threeWay true false) .wb (fun _ => true) (fun _ => Prog.put .uint8 64 1)
        (fresh 3) = .ok s' ∧ Exec.Fails (s'.commitCow .wb)) ∧
      Differ .wt (withoutThird.cow 0) (withoutThird.cow 2) ∧
      (∃ s', withoutThird.commitCow .wt = .ok s') ∧ ∃ s', withoutThird.commitCow .wb = .ok s' :=
  ⟨⟨fails_oneByte_threePhases .wt, fails_oneByte_threePhases .wb⟩,
    ⟨8, by decide, .inl (by decide)⟩, commitCow_withoutThird .wt, commitCow_withoutThird .wb⟩

/-! ## Two phases with any writes -/

/-- In every bucket both sequences of writes touch the same words, in the same order, and leave
them with the same values. -/
def SameWords (m : Mem) (ws ws1 : List Write) : Prop :=
  ∀ i < cowMax, wordKeys ws i = wordKeys ws1 i ∧
    ∀ k ∈ wordKeys ws i, load (runWrites ws m) (k * 8) 8 = load (runWrites ws1 m) (k * 8) 8

section Puts

variable {wss : Nat → List Write} {k : Nat} {vs : List (UIntTy × Nat × Nat)}
  (h : Before m n wss k s) (hk : k < n) (ha : ∀ v ∈ vs, v.2.1 % v.1.sizeof = 0)

include h hk ha

/-- A phase that makes a sequence of aligned writes has made them. -/
theorem Before.inPhase_puts {r : Option Unit}
    (hrun : (Prog.puts vs).run (access b mode room) s = .ok (r, s')) :
    InPhase mode m k s (Prog.stores vs) s' := by
  have haligned : ∀ w ∈ Prog.stores vs, w.Aligned := by
    rw [Prog.stores, List.forall_mem_map]
    exact ha
  have hissued := Prog.issued_puts hrun
  rw [← hissued] at haligned ⊢
  exact h.run hk haligned hrun

/-- Nothing stops such a phase if there is room. -/
theorem Before.puts_total (b : Build) (mode : CowMode) (hb : k < b.redundancy)
    (hroom : ∀ s, room s = true) (hlen : vs.length < 2 ^ 30) :
    ∃ r s', (Prog.puts vs).run (access b mode room) s = .ok (r, s') := by
  have hstart := inPhase_start h.p (h.ready k (le_refl k) hk) mode
  exact hstart.run_puts hb hroom ha (by simpa using hlen)

end Puts

/-- Two phases of `COW_WT` with any aligned writes. -/
theorem twoPhases_exact (b : Build) (room : CowSei → Bool) (hbegun : Begun 2 s)
    (ws ws1 : List (UIntTy × Nat × Nat)) (ha : ∀ w ∈ ws, w.2.1 % w.1.sizeof = 0)
    (ha1 : ∀ w ∈ ws1, w.2.1 % w.1.sizeof = 0) :
    (∀ s1, phaseThenSwitch b .wt room (fun _ => Prog.puts ws) 0 s = .ok s1 →
      s1.mem = s.mem ∧
      ∀ r s2, (Prog.puts ws1).run (access b .wt room) s1 = .ok (r, s2) →
        ((∃ r, Cow.applyCmp .wt (s2.cow 0) (s2.cow 1) s2.mem = .ok r) ↔
          SameWords s.mem (Prog.stores ws) (Prog.stores ws1))) ∧
    ((∀ s, room s = true) → ws.length < 2 ^ 30 → ws1.length < 2 ^ 30 →
      ∃ s1 r s2, phaseThenSwitch b .wt room (fun _ => Prog.puts ws) 0 s = .ok s1 ∧
        (Prog.puts ws1).run (access b .wt room) s1 = .ok (r, s2)) := by
  have hstart : Before s.mem 2 (fun q => if q = 0 then Prog.stores ws else Prog.stores ws1) 0 s :=
    ⟨hbegun.p, hbegun.level, rfl, fun q hq => absurd hq (by omega), fun q _ hq => hbegun.ready q hq⟩
  constructor
  · intro s1 hrun0
    obtain ⟨⟨r0, s0⟩, hrun0, hswitch⟩ := bind_eq_ok.mp hrun0
    have hbefore := (hstart.inPhase_puts (by omega) ha hrun0).switch hstart hswitch
    refine ⟨hbefore.mem, fun r s2 hrun1 => ?_⟩
    have hend := hbefore.inPhase_puts (by omega) ha1 hrun1
    have hlogged : Logged s.mem (Prog.stores ws) (s2.cow 0) := by
      rw [hend.others 0 (by omega)]
      exact hbefore.logged 0 (by omega)
    have hmatches : ∀ i < cowMax, (Cow.Matches .wt s2.mem ((s2.cow 0).table i) ((s2.cow 1).table i) ↔
        wordKeys (Prog.stores ws) i = wordKeys (Prog.stores ws1) i ∧
          ∀ k ∈ wordKeys (Prog.stores ws) i, load (runWrites (Prog.stores ws) s.mem) (k * 8) 8 =
            load (runWrites (Prog.stores ws1) s.mem) (k * 8) 8) := fun i hi =>
      hlogged.matches_iff hend.keys (fun _ => hend.mem) (fun h => by cases h) hi
    constructor
    · rintro ⟨r', hcmp⟩ i hi
      exact (hmatches i hi).mp ((Cow.applyCmp_eq_ok.mp hcmp).1 i hi)
    · intro hsame
      exact ⟨_, Cow.applyCmp_eq_ok.mpr ⟨fun i hi => (hmatches i hi).mpr (hsame i hi), rfl⟩⟩
  · intro hroom hlen hlen1
    have h2 := b.two_le
    obtain ⟨r0, s0, hrun0⟩ := hstart.puts_total (by omega) ha b .wt (by omega) hroom hlen
    have hend0 : InPhase .wt s.mem 0 s (Prog.stores ws) s0 :=
      hstart.inPhase_puts (by omega) ha hrun0
    obtain ⟨s1, hswitch⟩ := hend0.switch_total (b := b) (by rw [hbegun.level]; omega)
      (by rw [hbegun.level]; decide)
    have hbefore := hend0.switch hstart hswitch
    obtain ⟨r, s2, hrun1⟩ := hbefore.puts_total (by omega) ha1 b .wt (by omega) hroom hlen1
    exact ⟨s1, r, s2, bind_eq_ok.mpr ⟨_, hrun0, hswitch⟩, hrun1⟩

/-- Phase 0 writes a byte twice, phase 1 once, with the same value in the end. -/
theorem twoPhases_exact_byteTwice :
    ∃ s1 r s2, phaseThenSwitch (Build.twoWay true false) .wt (fun _ => true)
        (fun _ => Prog.puts [(.uint8, 64, 1), (.uint8, 64, 2)]) 0 (fresh 2) = .ok s1 ∧
      (Prog.puts [(.uint8, 64, 2)]).run (access (Build.twoWay true false) .wt fun _ => true) s1 =
        .ok (r, s2) ∧
      s1.mem = (fun _ => 0) ∧ ∃ r', Cow.applyCmp .wt (s2.cow 0) (s2.cow 1) s2.mem = .ok r' := by
  obtain ⟨hexact, htotal⟩ := twoPhases_exact (Build.twoWay true false) (fun _ => true)
    (begun_fresh 2) [(.uint8, 64, 1), (.uint8, 64, 2)] [(.uint8, 64, 2)] (by decide) (by decide)
  obtain ⟨s1, r, s2, hrun0, hrun1⟩ := htotal (fun _ => rfl) (by decide) (by decide)
  obtain ⟨hmem, hcmp⟩ := hexact s1 hrun0
  refine ⟨s1, r, s2, hrun0, hrun1, hmem, (hcmp r s2 hrun1).mpr fun i _ => ⟨rfl, fun k _ => ?_⟩⟩
  have hwrites : runWrites (Prog.stores [(UIntTy.uint8, 64, 1), (.uint8, 64, 2)]) (fresh 2).mem =
      runWrites (Prog.stores [(UIntTy.uint8, 64, 2)]) (fresh 2).mem := by
    funext byte
    by_cases hb : byte = 64
    · rw [hb]
      rfl
    · have hnot : ∀ v, ¬ (Write.ofNat 64 1 v).Covers byte := fun v hcov => by
        have hle : 64 ≤ byte ∧ byte < 64 + 1 := hcov
        omega
      rw [runWrites_of_not_covers, runWrites_of_not_covers]
      · exact fun w hw => List.mem_singleton.mp hw ▸ hnot 2
      · intro w hw
        rcases List.mem_cons.mp hw with rfl | hw
        · exact hnot 1
        · exact List.mem_singleton.mp hw ▸ hnot 2
  rw [hwrites]

end CowSei

end LibSei
