-- SUMMARY: Transactions on copy-on-write buffers: accesses in a phase, the switch between phases, and the loop of comparisons at commit.
import LibSei.Cow.Whole
import LibSei.Itm.Programs

/-!
# Phases on copy-on-write buffers

In builds without `COW_APPEND_ONLY` each phase has a buffer of its own. The invariants here say
what a phase has put into its buffer and into memory after some writes, and what the switches
leave of the phases before. They hold for any handler, whatever it reads.
-/

namespace LibSei

open Memory Control

/-- `struct sei` in builds without `COW_APPEND_ONLY`, with the fields that the accesses and the
comparison of the buffers use, and memory. -/
structure CowSei where
  p : Int
  redundancyLevel : Nat
  cow : Nat → Cow
  mem : Mem

namespace CowSei

/-- `sei_read_##type`. -/
def read (b : Build) (mode : CowMode) (t : UIntTy) (addr : Nat) (s : CowSei) : Exec Nat := do
  inBounds (0 ≤ s.p ∧ s.p < maxRedundancy) "sei->cow"
  (s.cow s.p.toNat).read b mode s.mem t addr

/-- `sei_write_##type`. -/
def write (b : Build) (mode : CowMode) (room : Bool) (t : UIntTy) (addr value : Nat) (s : CowSei) :
    Exec CowSei := do
  b.assert (0 ≤ s.p ∧ s.p < b.redundancy) "sei->p >= 0 && sei->p < SEI_DMR_REDUNDANCY"
  inBounds (0 ≤ s.p ∧ s.p < maxRedundancy) "sei->cow"
  let r ← (s.cow s.p.toNat).write b mode room s.mem t addr value
  return { s with cow := Function.update s.cow s.p.toNat r.1, mem := r.2 }

/-- The accesses of a handler. `room` says in which states `realloc` finds memory. -/
def access (b : Build) (mode : CowMode) (room : CowSei → Bool) : Prog.Runtime UIntTy Stop CowSei where
  read := read b mode
  write t addr value s := s.write b mode (room s) t addr value

/-- What `sei_switch` does to the buffer of the phase that ends, and to memory. -/
def swapPhase (mode : CowMode) (s : CowSei) : Exec CowSei :=
  if mode = .wt then do
    inBounds (0 ≤ s.p ∧ s.p < maxRedundancy) "sei->cow"
    return { s with
      cow := Function.update s.cow s.p.toNat ((s.cow s.p.toNat).swap s.mem).1
      mem := ((s.cow s.p.toNat).swap s.mem).2 }
  else return s

/-- `sei_switch`. -/
def switch (b : Build) (mode : CowMode) (s : CowSei) : Exec CowSei := do
  b.assert (0 ≤ s.p ∧ s.p < s.redundancyLevel - 1) "sei_switch() called with invalid phase"
  let s' ← s.swapPhase mode
  return { s' with p := s.p + 1 }

/-- A call of `cow_apply_cmp` in `sei_commit`. -/
def cmpPhase (mode : CowMode) (i : Nat) (s : CowSei) : Exec CowSei := do
  inBounds (i < maxRedundancy) "sei->cow"
  let r ← Cow.applyCmp mode (s.cow 0) (s.cow i) s.mem
  return { s with cow := Function.update (Function.update s.cow 0 r.1) i r.2.1, mem := r.2.2 }

/-- The comparison of the buffers in `sei_commit`. -/
def commitCow (mode : CowMode) (s : CowSei) : Exec CowSei :=
  forLoop (cmpPhase mode) (s.redundancyLevel - 1) 1 { s with p := -1 }

section Handler

variable {α : Type} (b : Build) (mode : CowMode) (room : CowSei → Bool) (h : Nat → Prog UIntTy α)

/-- A phase before the last, and the switch behind it. -/
def phaseThenSwitch (k : Nat) (s : CowSei) : Exec CowSei := do
  let r ← (h k).run (access b mode room) s
  r.2.switch b mode

/-- The first `k` phases, `h q` running in phase `q`. -/
def phasesUpTo (k : Nat) (s : CowSei) : Exec CowSei := forLoop (phaseThenSwitch b mode room h) k 0 s

/-- The phases of a transaction, from `sei_begin` to `sei_commit`. -/
def phases (s : CowSei) : Exec CowSei := do
  let s ← phasesUpTo b mode room h (s.redundancyLevel - 1) s
  let r ← (h (s.redundancyLevel - 1)).run (access b mode room) s
  return r.2

end Handler

/-! ## Keys of the words written -/

/-- The keys of the words that were written, by bucket, in the order of the first writes. -/
def wordKeys (ws : List Write) : Nat → List Nat :=
  ws.foldl (fun keys w => Cow.addKey keys (w.addr / 8)) fun _ => []

theorem wordKeys_append_singleton (ws : List Write) (w : Write) :
    wordKeys (ws ++ [w]) = Cow.addKey (wordKeys ws) (w.addr / 8) := by
  rw [wordKeys, List.foldl_append]
  rfl

end CowSei

namespace Cow

/-- What is added to a bucket depends on the buckets of the table only. -/
theorem addKey_congr {keys keys' : Nat → List Nat} (h : ∀ i < cowMax, keys i = keys' i) (k : Nat) :
    ∀ i < cowMax, addKey keys k i = addKey keys' k i := by
  intro i hi
  rw [addKey, addKey, h _ (hash_lt k)]
  split
  · exact h i hi
  · by_cases heq : i = hash k
    · rw [heq, Function.update_self, Function.update_self]
    · rw [Function.update_of_ne heq, Function.update_of_ne heq, h i hi]

theorem mem_addKey_of_mem {keys : Nat → List Nat} {i k : Nat} (k' : Nat) (h : k ∈ keys i) :
    k ∈ addKey keys k' i := by
  rw [addKey]
  split
  · exact h
  · by_cases heq : i = hash k'
    · subst heq
      rw [Function.update_self]
      exact List.mem_append_left _ h
    · rwa [Function.update_of_ne heq]

/-- Equal keys and equal views mean equal words. -/
theorem look_congr {c c' : Cow} {m : Mem} (hkeys : ∀ i < cowMax, c.keys i = c'.keys i)
    (hview : c.view m = c'.view m) (k : Nat) : c.look k = c'.look k := by
  cases h : c.look k with
  | none =>
    have hnone : c'.look k = none := by
      rw [look_eq_none, ← hkeys _ (hash_lt k)]
      exact look_eq_none.mp h
    rw [hnone]
  | some w =>
    obtain ⟨w', h'⟩ : ∃ w', c'.look k = some w' := by
      refine Option.ne_none_iff_exists'.mp fun hnone => ?_
      rw [look_eq_none, ← hkeys _ (hash_lt k), ← look_eq_none, h] at hnone
      cases hnone
    rw [h', Option.some.injEq]
    funext j
    rw [word_eq_of_overlay (m := m) h, word_eq_of_overlay (m := m) h']
    exact congrFun hview _

/-- A read depends on the words of the buffer and on memory only. -/
theorem read_congr {b : Build} {mode : CowMode} {c c' : Cow} {m : Mem}
    (hlook : ∀ k, c.look k = c'.look k) (t : UIntTy) (addr : Nat) :
    c.read b mode m t addr = c'.read b mode m t addr := by
  rw [read, read]
  split
  · rfl
  · have hfind := hlook (getWKey addr)
    rw [← map_find, ← map_find] at hfind
    cases h : c.find (getWKey addr) with
    | none =>
      rw [h, Option.map_none, eq_comm, Option.map_eq_none_iff] at hfind
      rw [hfind]
    | some e =>
      obtain ⟨e', h'⟩ : ∃ e', c'.find (getWKey addr) = some e' := by
        refine Option.ne_none_iff_exists'.mp fun hnone => ?_
        rw [h, hnone] at hfind
        cases hfind
      have hword : e.wvalue = e'.wvalue := by simpa [h, h'] using hfind
      rw [h', Option.elim_some, Option.elim_some, CowEntry.read, CowEntry.read, hword]

end Cow

namespace CowSei

variable {b : Build} {mode : CowMode} {room : CowSei → Bool} {m : Mem} {s s' s0 : CowSei} {n p : Nat}
  {ws : List Write}

theorem mem_wordKeys {w : Write} (hw : w ∈ ws) : w.addr / 8 ∈ wordKeys ws (Cow.hash (w.addr / 8)) := by
  induction ws using List.reverseRecOn with
  | nil => cases hw
  | append_singleton ws v ih =>
    rw [wordKeys_append_singleton]
    rcases List.mem_append.mp hw with hw | hw
    · exact Cow.mem_addKey_of_mem _ (ih hw)
    · rw [List.mem_singleton.mp hw]
      exact Cow.mem_addKey _ _

/-! ## One phase -/

/-- Phase `k` has made the writes `ws` since the state `s0`, on memory that was `m`. -/
structure InPhase (mode : CowMode) (m : Mem) (k : Nat) (s0 : CowSei) (ws : List Write) (s : CowSei) :
    Prop where
  p : s.p = k
  level : s.redundancyLevel = s0.redundancyLevel
  others : ∀ q, q ≠ k → s.cow q = s0.cow q
  wellFormed : (s.cow k).WellFormed
  keys : ∀ i < cowMax, (s.cow k).keys i = wordKeys ws i
  mem : s.mem = if mode = .wt then runWrites ws m else m
  view : (s.cow k).view s.mem = if mode = .wt then m else runWrites ws m

theorem inPhase_start (hp : s.p = p) (hready : (s.cow p).Ready) (mode : CowMode) :
    InPhase mode s.mem p s [] s where
  p := hp
  level := rfl
  others _ _ := rfl
  wellFormed := hready.wellFormed
  keys i hi := hready.empty.keys hi
  mem := by cases mode <;> rfl
  view := by rw [hready.empty.view]; cases mode <;> rfl

/-- A write in phase `p` goes to its buffer. -/
theorem write_eq_ok {room : Bool} {t : UIntTy} {addr value : Nat} (hp : s.p = p)
    (h : s.write b mode room t addr value = .ok s') :
    ∃ c m', (s.cow p).write b mode room s.mem t addr value = .ok (c, m') ∧
      s' = { s with cow := Function.update s.cow p c, mem := m' } := by
  rw [CowSei.write] at h
  obtain ⟨-, h⟩ := seq_eq_ok.mp h
  obtain ⟨-, h⟩ := seq_eq_ok.mp h
  obtain ⟨⟨c, m'⟩, hwrite, h⟩ := bind_eq_ok.mp h
  have hindex : s.p.toNat = p := by rw [hp, Int.toNat_natCast]
  rw [hindex] at hwrite h
  cases h
  exact ⟨c, m', hwrite, rfl⟩

/-- An aligned write in a phase. -/
theorem InPhase.write (h : InPhase mode m p s0 ws s) {t : UIntTy} {addr value : Nat} {room : Bool}
    (ha : addr % t.sizeof = 0) (hrun : s.write b mode room t addr value = .ok s') :
    InPhase mode m p s0 (ws ++ [Write.ofNat addr t.sizeof value]) s' := by
  obtain ⟨c, m', hwrite, rfl⟩ := write_eq_ok h.p hrun
  obtain ⟨hwell, hkeys, hmem⟩ := Cow.write_spec h.wellFormed ha hwrite
  have hrunWrites : runWrites (ws ++ [Write.ofNat addr t.sizeof value]) m =
      store (runWrites ws m) addr t.sizeof value := by
    rw [runWrites_append, runWrites_cons, runWrites_nil, Write.apply_ofNat]
  have hcow : Function.update s.cow p c p = c := Function.update_self _ _ _
  refine ⟨h.p, h.level, fun q hq => ?_, ?_, fun i hi => ?_, ?_, ?_⟩
  · rw [← h.others q hq]
    exact Function.update_of_ne hq _ _
  · show (Function.update s.cow p c p).WellFormed
    rwa [hcow]
  · show (Function.update s.cow p c p).keys i = _
    rw [hcow, hkeys, wordKeys_append_singleton]
    exact Cow.addKey_congr h.keys _ i hi
  · have hbefore := h.mem
    split at hmem
    · next hwt =>
      rw [if_pos hwt] at hbefore ⊢
      rw [hrunWrites, ← hbefore]
      exact hmem.1
    · next hwb =>
      rw [if_neg hwb] at hbefore ⊢
      exact hmem.1.trans hbefore
  · show (Function.update s.cow p c p).view m' = _
    have hbefore := h.view
    rw [hcow]
    split at hmem
    · next hwt =>
      rw [if_pos hwt] at hbefore ⊢
      exact hmem.2.trans hbefore
    · next hwb =>
      rw [if_neg hwb] at hbefore ⊢
      rw [hmem.1, hmem.2, hbefore, hrunWrites]

theorem InPhase.keeps (b : Build) (mode : CowMode) (room : CowSei → Bool) (m : Mem) (p : Nat)
    (s0 : CowSei) : Prog.Keeps (access b mode room) Write.Aligned (InPhase mode m p s0) :=
  fun _ _ _ _ _ _ h hQ hwrite => h.write hQ hwrite

/-- Phases that have made the same writes on the same memory read the same. -/
theorem InPhase.read_congr {s1 s2 : CowSei} {q : Nat} (h : InPhase mode m p s0 ws s)
    (h1 : InPhase mode m q s1 ws s2) (hp : p < maxRedundancy) (hq : q < maxRedundancy) (t : UIntTy)
    (addr : Nat) : s2.read b mode t addr = s.read b mode t addr := by
  have hmem : s2.mem = s.mem := h1.mem.trans h.mem.symm
  have hview : (s2.cow q).view s.mem = (s.cow p).view s.mem := by
    rw [h.view, ← h1.view, hmem]
  have hkeys : ∀ i < cowMax, (s2.cow q).keys i = (s.cow p).keys i := fun i hi =>
    (h1.keys i hi).trans (h.keys i hi).symm
  have hbounds : 0 ≤ s.p ∧ s.p < maxRedundancy := by rw [h.p]; omega
  have hbounds2 : 0 ≤ s2.p ∧ s2.p < maxRedundancy := by rw [h1.p]; omega
  rw [CowSei.read, CowSei.read, inBounds_of hbounds, inBounds_of hbounds2, ok_bind, ok_bind, hmem,
    h.p, h1.p, Int.toNat_natCast, Int.toNat_natCast]
  exact Cow.read_congr (Cow.look_congr hkeys hview) t addr

theorem length_wordKeys_le (ws : List Write) (i : Nat) : (wordKeys ws i).length ≤ ws.length := by
  induction ws using List.reverseRecOn with
  | nil => exact Nat.zero_le _
  | append_singleton ws w ih =>
    rw [wordKeys_append_singleton, List.length_append]
    exact (Cow.length_addKey_le _ _ _).trans (Nat.succ_le_succ ih)

/-- With memory for the buckets, aligned writes go through until the capacities would overflow. -/
theorem InPhase.write_total (h : InPhase mode m p s0 ws s) (hp : p < b.redundancy) {t : UIntTy}
    {addr : Nat} (ha : addr % t.sizeof = 0) (hlen : ws.length + 1 < 2 ^ 30) (value : Nat) :
    ∃ s', s.write b mode true t addr value = .ok s' := by
  have hbucket : ((s.cow p).table (Cow.hash (addr / 8))).length ≤ ws.length := by
    rw [← Cow.length_keys, h.keys _ (Cow.hash_lt _)]
    exact length_wordKeys_le _ _
  obtain ⟨c, m', hwrite⟩ := Cow.write_total b mode s.mem value h.wellFormed ha (by omega)
  have hmax := b.le_max
  rw [CowSei.write, h.p, Build.assert_of ⟨by omega, by omega⟩, ok_bind,
    inBounds_of ⟨by omega, by omega⟩, ok_bind, Int.toNat_natCast, hwrite]
  exact ⟨_, rfl⟩

theorem InPhase.run_puts (h : InPhase mode m p s0 ws s) (hp : p < b.redundancy)
    (hroom : ∀ s, room s = true) {vs : List (UIntTy × Nat × Nat)}
    (ha : ∀ v ∈ vs, v.2.1 % v.1.sizeof = 0) (hlen : ws.length + vs.length < 2 ^ 30) :
    ∃ r s', (Prog.puts vs).run (access b mode room) s = .ok (r, s') := by
  induction vs generalizing ws s with
  | nil => exact ⟨_, _, rfl⟩
  | cons v vs ih =>
    rw [List.forall_mem_cons] at ha
    rw [List.length_cons] at hlen
    obtain ⟨s1, hwrite⟩ := h.write_total hp ha.1 (by omega) v.2.2
    obtain ⟨r, s', hrun⟩ := ih (h.write ha.1 hwrite) ha.2 (by
      rw [List.length_append, List.length_singleton]
      omega)
    refine ⟨r, s', bind_eq_ok.mpr ⟨s1, ?_, hrun⟩⟩
    show s.write b mode (room s) v.1 v.2.1 v.2.2 = .ok s1
    rw [hroom, hwrite]

/-- In `COW_WT` a program whose writes are aligned does in a phase what it does on plain memory. -/
theorem tracks_wt (b : Build) (room : CowSei → Bool) (m : Mem) (hp : p < maxRedundancy) :
    Prog.Tracks (access b .wt room) m (fun _ _ => True) (fun t addr => addr % t.sizeof = 0)
      (fun ws s => s.p = p ∧ (s.cow p).WellFormed ∧ s.mem = runWrites ws m) where
  read := by
    rintro ws s t addr ⟨hphase, -, hmem⟩ -
    show s.read b .wt t addr = _
    have hbounds : 0 ≤ s.p ∧ s.p < maxRedundancy := by omega
    rw [CowSei.read, inBounds_of hbounds, ok_bind, hmem]
    rfl
  write := by
    rintro ws s s' t addr val ⟨hphase, hwell, hmem⟩ ha hwrite
    obtain ⟨c, m', hcow, rfl⟩ := write_eq_ok hphase hwrite
    obtain ⟨hwell', -, hmem'⟩ := Cow.write_spec hwell ha hcow
    rw [if_pos rfl] at hmem'
    refine ⟨hphase, ?_, ?_⟩
    · show (Function.update s.cow p c p).WellFormed
      rwa [Function.update_self]
    · rw [runWrites_append, runWrites_cons, runWrites_nil, Write.apply_ofNat, ← hmem]
      exact hmem'.1

/-! ## From phase to phase -/

/-- The buffer of a phase that has ended: over the memory of the start it shows what the phase
has written. -/
structure Logged (m : Mem) (ws : List Write) (c : Cow) : Prop where
  wellFormed : c.WellFormed
  keys : ∀ i < cowMax, c.keys i = wordKeys ws i
  view : c.view m = runWrites ws m

/-- Before phase `k` of a transaction with `n` phases, the phases before it having made the
writes `wss`. -/
structure Before (m : Mem) (n : Nat) (wss : Nat → List Write) (k : Nat) (s : CowSei) : Prop where
  p : s.p = k
  level : s.redundancyLevel = n
  mem : s.mem = m
  logged : ∀ q < k, Logged m (wss q) (s.cow q)
  ready : ∀ q, k ≤ q → q < n → (s.cow q).Ready

theorem InPhase.switch {wss : Nat → List Write} {k : Nat} (hbefore : Before m n wss k s0)
    (h : InPhase mode m k s0 (wss k) s) (hrun : s.switch b mode = .ok s') :
    Before m n wss (k + 1) s' := by
  rw [CowSei.switch] at hrun
  obtain ⟨-, hrun⟩ := seq_eq_ok.mp hrun
  obtain ⟨s1, hswap, hrun⟩ := bind_eq_ok.mp hrun
  have hk : s.p.toNat = k := by rw [h.p, Int.toNat_natCast]
  -- whatever the mode, memory is again that of the start and the buffer shows the writes
  obtain ⟨hmem, hlogged, hothers, hlevel⟩ : s1.mem = m ∧ Logged m (wss k) (s1.cow k) ∧
      (∀ q, q ≠ k → s1.cow q = s0.cow q) ∧ s1.redundancyLevel = n := by
    rw [swapPhase] at hswap
    split at hswap
    · next hwt =>
      obtain ⟨-, hswap⟩ := seq_eq_ok.mp hswap
      obtain ⟨hwell, hkeys, hmem, hview⟩ := Cow.swap_spec h.wellFormed s.mem
      have hstart := h.view
      have hend := h.mem
      rw [if_pos hwt] at hstart hend
      cases hswap
      rw [hk]
      have hcow : Function.update s.cow k ((s.cow k).swap s.mem).1 k = ((s.cow k).swap s.mem).1 :=
        Function.update_self _ _ _
      refine ⟨hmem.trans hstart, ?_, fun q hq => ?_, h.level.trans hbefore.level⟩
      · show Logged m (wss k) (Function.update s.cow k ((s.cow k).swap s.mem).1 k)
        rw [hcow]
        rw [hstart, hend] at hview
        exact ⟨hwell, fun i hi => by rw [hkeys, h.keys i hi], by rw [hend, hview]⟩
      · rw [← h.others q hq]
        exact Function.update_of_ne hq _ _
    · next hwb =>
      have hstart := h.view
      have hend := h.mem
      rw [if_neg hwb] at hstart hend
      cases hswap
      exact ⟨hend, ⟨h.wellFormed, h.keys, by rw [← hstart, hend]⟩, h.others,
        h.level.trans hbefore.level⟩
  cases hrun
  refine ⟨?_, hlevel, hmem, fun q hq => ?_, fun q hq hlt => ?_⟩
  · show s.p + 1 = _
    rw [h.p]
    rfl
  · show Logged m (wss q) (s1.cow q)
    by_cases heq : q = k
    · rw [heq]
      exact hlogged
    · rw [hothers q heq]
      exact hbefore.logged q (by omega)
  · show (s1.cow q).Ready
    rw [hothers q (by omega)]
    exact hbefore.ready q (by omega) hlt

theorem InPhase.switch_total {k : Nat} (h : InPhase mode m k s0 ws s)
    (hk : k + 1 < s0.redundancyLevel) (hmax : s0.redundancyLevel ≤ maxRedundancy) :
    ∃ s', s.switch b mode = .ok s' := by
  have hlevel : (s.redundancyLevel : Int) = s0.redundancyLevel := by rw [h.level]
  have hphase : 0 ≤ s.p ∧ s.p < s.redundancyLevel - 1 := by
    rw [h.p]
    omega
  have hbounds : 0 ≤ s.p ∧ s.p < maxRedundancy := by omega
  rw [CowSei.switch, Build.assert_of hphase, ok_bind, swapPhase]
  split
  · rw [inBounds_of hbounds]
    exact ⟨_, rfl⟩
  · exact ⟨_, rfl⟩

/-- A phase that comes to its end. -/
theorem Before.run {α : Type} {wss : Nat → List Write} {k : Nat} {h : Prog UIntTy α} {r : Option α}
    (hbefore : Before m n wss k s) (hk : k < n)
    (ha : ∀ w ∈ h.issued (access b mode room) s, w.Aligned)
    (hrun : h.run (access b mode room) s = .ok (r, s')) :
    InPhase mode m k s (h.issued (access b mode room) s) s' := by
  have hstart := inPhase_start hbefore.p (hbefore.ready k (le_refl k) hk) mode
  rw [hbefore.mem] at hstart
  exact (InPhase.keeps b mode room m k s).run hstart ha hrun

/-- A handler makes in a later phase the writes it makes in phase 0. -/
theorem Before.issued_eq {α : Type} {wss wss' : Nat → List Write} {k : Nat} {h : Prog UIntTy α}
    {r r' : Option α} {s1 s1' : CowSei} (hbefore : Before m n wss 0 s) (hlater : Before m n wss' k s1)
    (hk : k < n) (hn : n ≤ maxRedundancy) (ha : ∀ w ∈ h.issued (access b mode room) s, w.Aligned)
    (hrun : h.run (access b mode room) s = .ok (r, s'))
    (hrun1 : h.run (access b mode room) s1 = .ok (r', s1')) :
    h.issued (access b mode room) s1 = h.issued (access b mode room) s := by
  have hstart := inPhase_start hbefore.p (hbefore.ready 0 (le_refl 0) (by omega)) mode
  have hstart1 := inPhase_start hlater.p (hlater.ready k (le_refl k) hk) mode
  rw [hbefore.mem] at hstart
  rw [hlater.mem] at hstart1
  exact Prog.issued_congr (InPhase.keeps b mode room m 0 s) (InPhase.keeps b mode room m k s1)
    (fun _ _ _ t addr hs hs1 => hs.read_congr hs1 (by omega) (by omega) t addr)
    hstart hstart1 ha hrun hrun1

/-- After the same handler has run in all phases. -/
theorem Before.phases {α : Type} {wss : Nat → List Write} {h : Prog UIntTy α}
    (hbefore : Before m n wss 0 s) (h2 : 2 ≤ n) (hn : n ≤ maxRedundancy)
    (ha : ∀ w ∈ h.issued (access b mode room) s, w.Aligned)
    (hrun : CowSei.phases b mode room (fun _ => h) s = .ok s') :
    ∃ s1, Before m n (fun _ => h.issued (access b mode room) s) (n - 1) s1 ∧
      InPhase mode m (n - 1) s1 (h.issued (access b mode room) s) s' := by
  have hstart : Before m n (fun _ => h.issued (access b mode room) s) 0 s :=
    ⟨hbefore.p, hbefore.level, hbefore.mem, fun q hq => absurd hq (by omega), hbefore.ready⟩
  rw [CowSei.phases, hbefore.level] at hrun
  obtain ⟨s1, hup, hrun⟩ := bind_eq_ok.mp hrun
  obtain ⟨⟨r, s2⟩, hlast, hrun⟩ := bind_eq_ok.mp hrun
  cases hrun
  -- phase 0 has come to its end
  obtain ⟨r0, s0, hfirst⟩ : ∃ r0 s0, h.run (access b mode room) s = .ok (r0, s0) := by
    obtain ⟨k, rfl⟩ : ∃ k, n = k + 2 := ⟨n - 2, by omega⟩
    rw [phasesUpTo, show k + 2 - 1 = k + 1 by omega, forLoop_succ] at hup
    obtain ⟨_, hphase, -⟩ := bind_eq_ok.mp hup
    obtain ⟨⟨r0, s0⟩, hfirst, -⟩ := bind_eq_ok.mp hphase
    exact ⟨r0, s0, hfirst⟩
  have hissued : ∀ k s1 r1 s2, k < n →
      Before m n (fun _ => h.issued (access b mode room) s) k s1 →
      h.run (access b mode room) s1 = .ok (r1, s2) →
      InPhase mode m k s1 (h.issued (access b mode room) s) s2 := by
    intro k s1 r1 s2 hk hbefore1 hrun1
    have heq := hstart.issued_eq hbefore1 hk hn ha hfirst hrun1
    rw [← heq] at ha ⊢
    exact hbefore1.run hk ha hrun1
  have hup' := forLoop_invariant
    (P := fun k s1 => k ≤ n - 1 → Before m n (fun _ => h.issued (access b mode room) s) k s1)
    ?_ (fun _ => hstart) hup
  · rw [Nat.zero_add] at hup'
    have hbefore1 := hup' (le_refl _)
    exact ⟨s1, hbefore1, hissued (n - 1) s1 r s2 (by omega) hbefore1 hlast⟩
  · intro k s1 s2 _ hbefore1 hphase hk
    obtain ⟨⟨r1, s3⟩, hrun1, hswitch⟩ := bind_eq_ok.mp hphase
    have hbefore1 := hbefore1 (by omega)
    have hphase := hissued k s1 r1 s3 (by omega) hbefore1 hrun1
    exact InPhase.switch hbefore1 hphase hswitch

/-! ## What is compared -/

end CowSei

namespace Cow

variable {mode : CowMode} {c c1 : Cow} {m : Mem} {i : Nat}

/-- The value of an entry is the word that is seen at its key. -/
theorem map_wval (hc : Hashed c.keys) (hi : i < cowMax) (m : Mem) :
    (c.table i).map CowEntry.wval = (c.keys i).map fun k => load (c.view m) (k * 8) 8 := by
  rw [keys, List.map_map]
  refine List.map_congr_left fun e he => ?_
  have hkey : e.wkey ∈ c.keys i := List.mem_map_of_mem he
  have hlook : c.look e.wkey = some e.wvalue := by
    rw [look, hc.hash i hi _ hkey]
    exact valueOf_of_mem (hc.nodup i hi) he
  have hload : load (c.view m) (e.wkey * 8) 8 =
      leValue (fun j => c.view m (e.wkey * 8 + j)) 8 := rfl
  rw [CowEntry.wval_eq, Function.comp_apply, hload]
  refine leValue_congr fun j hj => ?_
  have hplace : (Fin.ofNat 8 j).val = j := Nat.mod_eq_of_lt hj
  have hbyte := word_eq_of_overlay (m := m) hlook (Fin.ofNat 8 j)
  rw [hplace] at hbyte
  exact hbyte

theorem Empty.matches_iff (hc : c.Empty) (mode : CowMode) (m : Mem) :
    (∀ i < cowMax, Matches mode m (c.table i) (c1.table i)) ↔ c1.Empty := by
  constructor
  · intro h i hi
    have hkeys := (h i hi).1
    rw [hc i hi] at hkeys
    exact List.map_eq_nil_iff.mp hkeys.symm
  · intro h i hi
    rw [hc i hi, h i hi]
    refine ⟨rfl, ?_⟩
    split
    · exact fun e he => by cases he
    · rfl

theorem Empty.comparedMem (hc : c.Empty) (mode : CowMode) (m : Mem) :
    Cow.comparedMem mode c cowMax m = m := by
  rw [Cow.comparedMem]
  split
  · rfl
  · have hhashed : Hashed c.keys :=
      ⟨fun i hi k hk => by simp [hc.keys hi] at hk, fun i hi => by simp [hc.keys hi]⟩
    rw [settle_all hhashed, hc.view]

end Cow

namespace CowSei

variable {b : Build} {mode : CowMode} {m : Mem} {s s' : CowSei} {n : Nat} {ws ws1 : List Write} {c c1 : Cow}

/-- The buckets of a phase with the writes `ws` and of the next, with the writes `ws1`, match
exactly when they have the same words in the same order and both phases left them with the
same values. -/
theorem Logged.matches_iff {mem : Mem} {i : Nat} (h : Logged m ws c)
    (hkeys : ∀ i < cowMax, c1.keys i = wordKeys ws1 i)
    (hwt : mode = .wt → mem = runWrites ws1 m) (hwb : mode = .wb → Logged m ws1 c1) (hi : i < cowMax) :
    Cow.Matches mode mem (c.table i) (c1.table i) ↔ wordKeys ws i = wordKeys ws1 i ∧
      ∀ k ∈ wordKeys ws i, load (runWrites ws m) (k * 8) 8 = load (runWrites ws1 m) (k * 8) 8 := by
  have hmap := Cow.map_wval h.wellFormed.hashed hi m
  rw [h.view, h.keys i hi] at hmap
  rw [← h.keys i hi, ← hkeys i hi]
  refine and_congr_right fun hsame => ?_
  cases mode with
  | wt =>
    rw [if_pos rfl, hwt rfl]
    have hvalue : ∀ e ∈ c.table i, e.wval = load (runWrites ws m) (e.wkey * 8) 8 := by
      have hmap := Cow.map_wval h.wellFormed.hashed hi m
      rw [h.view, Cow.keys, List.map_map] at hmap
      exact List.map_inj_left.mp hmap
    rw [Cow.keys, List.forall_mem_map]
    refine forall₂_congr fun e he => ?_
    rw [hvalue e he, CowEntry.waddr_eq]
  | wb =>
    have h1 := hwb rfl
    have hmap1 := Cow.map_wval h1.wellFormed.hashed hi m
    have hkeys1 : c.keys i = c1.keys i := hsame
    rw [h1.view] at hmap1
    rw [if_neg (by decide), hmap, hmap1, ← h.keys i hi, ← hkeys1]
    exact List.map_inj_left

/-! ## The comparisons at commit -/

theorem cmpPhase_eq_ok {i : Nat} (hi : i < maxRedundancy) : cmpPhase mode i s = .ok s' ↔
    (∀ j < cowMax, Cow.Matches mode s.mem ((s.cow 0).table j) ((s.cow i).table j)) ∧
      s' = { s with
        cow := Function.update (Function.update s.cow 0 ((s.cow 0).cleared cowMax)) i
          ((s.cow i).cleared cowMax)
        mem := Cow.comparedMem mode (s.cow 0) cowMax s.mem } := by
  rw [cmpPhase, inBounds_of hi, ok_bind, bind_eq_ok]
  constructor
  · rintro ⟨r, hcmp, h⟩
    obtain ⟨hmatch, rfl⟩ := Cow.applyCmp_eq_ok.mp hcmp
    cases h
    exact ⟨hmatch, rfl⟩
  · rintro ⟨hmatch, rfl⟩
    exact ⟨_, Cow.applyCmp_eq_ok.mpr ⟨hmatch, rfl⟩, rfl⟩

/-- Before the comparison with phase `i`: the buffers compared so far are empty, the others are
those of `s0`, and memory is `mem`. -/
structure Compared (s0 : CowSei) (mem : Mem) (i : Nat) (s : CowSei) : Prop where
  empty : ∀ q < i, (s.cow q).Empty
  others : ∀ q, i ≤ q → s.cow q = s0.cow q
  mem : s.mem = mem

variable {s0 : CowSei} {mem : Mem} {i : Nat}

theorem cmpPhase_one (h : cmpPhase mode 1 { s0 with p := -1 } = .ok s') :
    Compared s0 (Cow.comparedMem mode (s0.cow 0) cowMax s0.mem) 2 s' := by
  obtain ⟨-, rfl⟩ := (cmpPhase_eq_ok (by decide)).mp h
  refine ⟨fun q hq => ?_, fun q hq => ?_, rfl⟩
  · show (Function.update (Function.update s0.cow 0 _) 1 _ q).Empty
    rcases Nat.lt_succ_iff_lt_or_eq.mp hq with hq | rfl
    · obtain rfl : q = 0 := by omega
      rw [Function.update_of_ne (by decide), Function.update_self]
      exact Cow.empty_cleared _
    · rw [Function.update_self]
      exact Cow.empty_cleared _
  · show Function.update (Function.update s0.cow 0 _) 1 _ q = s0.cow q
    rw [Function.update_of_ne (by omega), Function.update_of_ne (by omega)]

/-- A comparison with the buffer of phase 0, which is empty by then. -/
theorem Compared.cmpPhase_eq_ok (h : Compared s0 mem i s) (hi : i < maxRedundancy) (hpos : 0 < i) :
    (∃ s', cmpPhase mode i s = .ok s') ↔ (s0.cow i).Empty := by
  rw [← h.others i (le_refl i), ← (h.empty 0 hpos).matches_iff mode s.mem]
  constructor
  · rintro ⟨s', hs'⟩
    exact ((CowSei.cmpPhase_eq_ok hi).mp hs').1
  · intro hmatch
    exact ⟨_, (CowSei.cmpPhase_eq_ok hi).mpr ⟨hmatch, rfl⟩⟩

theorem Compared.next (h : Compared s0 mem i s) (hi : i < maxRedundancy) (hpos : 0 < i)
    (hs' : cmpPhase mode i s = .ok s') : Compared s0 mem (i + 1) s' := by
  obtain ⟨-, rfl⟩ := (CowSei.cmpPhase_eq_ok hi).mp hs'
  refine ⟨fun q hq => ?_, fun q hq => ?_, ?_⟩
  · show (Function.update (Function.update s.cow 0 _) i _ q).Empty
    by_cases hqi : q = i
    · rw [hqi, Function.update_self]
      exact Cow.empty_cleared _
    · rw [Function.update_of_ne hqi]
      by_cases hq0 : q = 0
      · rw [hq0, Function.update_self]
        exact Cow.empty_cleared _
      · rw [Function.update_of_ne hq0]
        exact h.empty q (by omega)
  · show Function.update (Function.update s.cow 0 _) i _ q = s0.cow q
    rw [Function.update_of_ne (by omega), Function.update_of_ne (by omega), h.others q (by omega)]
  · exact ((h.empty 0 hpos).comparedMem mode s.mem).trans h.mem

section Commit

variable (h2 : 2 ≤ s.redundancyLevel) (hmax : s.redundancyLevel ≤ maxRedundancy)
include h2 hmax

/-- The comparisons at commit go through exactly if the buffers of the first two phases match and
those of all others are empty. -/
theorem commitCow_ok_iff : (∃ s', s.commitCow mode = .ok s') ↔
    (∀ j < cowMax, Cow.Matches mode s.mem ((s.cow 0).table j) ((s.cow 1).table j)) ∧
      ∀ q, 2 ≤ q → q < s.redundancyLevel → (s.cow q).Empty := by
  obtain ⟨n, hn⟩ : ∃ n, s.redundancyLevel - 1 = n + 1 := ⟨s.redundancyLevel - 2, by omega⟩
  rw [commitCow, hn, forLoop_succ]
  constructor
  · rintro ⟨s', hs'⟩
    obtain ⟨s1, h1, hrest⟩ := bind_eq_ok.mp hs'
    refine ⟨((cmpPhase_eq_ok (by decide)).mp h1).1, fun q hq hlt => ?_⟩
    -- every phase up to the one of the loop was found empty
    have hend := forLoop_invariant (P := fun i s1 => i ≤ s.redundancyLevel →
      Compared s (Cow.comparedMem mode (s.cow 0) cowMax s.mem) i s1 ∧
        ∀ q, 2 ≤ q → q < i → (s.cow q).Empty)
      ?_ (fun _ => ⟨cmpPhase_one h1, fun q hq hlt => by omega⟩) hrest
    · exact (hend (by omega)).2 q hq (by omega)
    · intro i s1 s2 hlo hP hs2 hi
      obtain ⟨hcompared, hempty⟩ := hP (by omega)
      refine ⟨hcompared.next (by omega) (by omega) hs2, fun q hq hlt => ?_⟩
      rcases Nat.lt_succ_iff_lt_or_eq.mp hlt with hlt | rfl
      · exact hempty q hq hlt
      · exact (hcompared.cmpPhase_eq_ok (by omega) (by omega)).mp ⟨s2, hs2⟩
  · rintro ⟨hmatch, hempty⟩
    obtain ⟨s1, h1⟩ : ∃ s1, cmpPhase mode 1 { s with p := -1 } = .ok s1 :=
      ⟨_, (cmpPhase_eq_ok (by decide)).mpr ⟨hmatch, rfl⟩⟩
    have hloop : ∃ s', forLoop (cmpPhase mode) n 2 s1 = .ok s' ∧
        Compared s (Cow.comparedMem mode (s.cow 0) cowMax s.mem) (2 + n) s' := by
      refine forLoop_total (fun i s2 hlo hhi hP => ?_) (cmpPhase_one h1)
      obtain ⟨s3, hs3⟩ := (hP.cmpPhase_eq_ok (by omega) (by omega)).mpr
        (hempty i (by omega) (by omega))
      exact ⟨s3, hs3, hP.next (by omega) (by omega) hs3⟩
    obtain ⟨s', hs', -⟩ := hloop
    exact ⟨s', bind_eq_ok.mpr ⟨s1, h1, hs'⟩⟩

/-- What the comparisons leave when they go through. -/
theorem commitCow_spec (h : s.commitCow mode = .ok s') :
    (∀ q < s.redundancyLevel, (s'.cow q).Empty) ∧
      s'.mem = Cow.comparedMem mode (s.cow 0) cowMax s.mem := by
  obtain ⟨n, hn⟩ : ∃ n, s.redundancyLevel - 1 = n + 1 := ⟨s.redundancyLevel - 2, by omega⟩
  rw [commitCow, hn, forLoop_succ] at h
  obtain ⟨s1, h1, hrest⟩ := bind_eq_ok.mp h
  have hend := forLoop_invariant (P := fun i s1 => i ≤ s.redundancyLevel →
    Compared s (Cow.comparedMem mode (s.cow 0) cowMax s.mem) i s1)
    ?_ (fun _ => cmpPhase_one h1) hrest
  · have hcompared := hend (by omega)
    exact ⟨fun q hq => hcompared.empty q (by omega), hcompared.mem⟩
  · intro i s1 s2 hlo hP hs2 hi
    exact (hP (by omega)).next (by omega) (by omega) hs2

/-- Otherwise the transaction fails. -/
theorem commitCow_fails_iff : Exec.Fails (s.commitCow mode) ↔ ¬ ∃ s', s.commitCow mode = .ok s' := by
  constructor
  · rintro ⟨e, -, he⟩ ⟨s', hs'⟩
    rw [he] at hs'
    cases hs'
  · intro hnot
    cases hrun : s.commitCow mode with
    | ok s' => exact absurd ⟨s', hrun⟩ hnot
    | error e =>
      rw [Exec.fails_error]
      obtain ⟨k, hk, s1, -, he⟩ := forLoop_eq_error.mp hrun
      rw [cmpPhase, inBounds_of (by omega), ok_bind] at he
      rcases bind_eq_error.mp he with he | ⟨r, -, he⟩
      · exact Cow.applyCmp_error he
      · cases he

end Commit

end CowSei

end LibSei
