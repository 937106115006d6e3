-- SUMMARY: The two-way comparisons of the logs with memory, `abuf_cmp_heap` and `abuf_try_cmp_heap`, and what each accepts.
import LibSei.Abuf.Basic

/-!
# Comparing two logs with memory

After the last phase the log of phase 0 holds what phase 0 wrote and memory holds
what the last phase left. `abuf_cmp_heap` compares the two and stops the process
when they differ; `abuf_try_cmp_heap` answers 0 or 1. An entry that differs from
memory is a conflict, excused by another entry with the same address. Which other
entry counts is where the two functions part.
-/

namespace LibSei

open Memory Control

/-- `ABUF_MAX_CONFLICTS`. -/
def abufMaxConflicts : Nat := 8000

namespace AbufEntry

/-- The entry's size is one the `switch` statements know. -/
def Known (e : AbufEntry) : Prop := (UIntTy.ofSize? e.size).isSome = true

instance (e : AbufEntry) : Decidable e.Known := inferInstanceAs (Decidable (_ = true))

/-- The memory at the entry's address differs from the value the entry holds. An
entry of unknown size is never seen to differ. -/
def conflict (e : AbufEntry) (mem : Mem) : Bool :=
  match UIntTy.ofSize? e.size with
  | some t => load mem e.addr t.sizeof != e.wvax t
  | none => false

/-- The `switch (e->size)` of the comparisons, which differ in its `default`. -/
def switchConflict {ε : Type} (e : AbufEntry) (mem : Mem) (default : Except ε Bool) :
    Except ε Bool :=
  match UIntTy.ofSize? e.size with
  | some t => .ok (load mem e.addr t.sizeof != e.wvax t)
  | none => default

theorem conflict_of_not_known {e : AbufEntry} {mem : Mem} (h : ¬ e.Known) :
    e.conflict mem = false := by
  have hnone : UIntTy.ofSize? e.size = none := by simpa [Known] using h
  simp [conflict, hnone]

theorem switchConflict_of_known {ε : Type} {e : AbufEntry} {mem : Mem} {default : Except ε Bool}
    (h : e.Known) : e.switchConflict mem default = .ok (e.conflict mem) := by
  obtain ⟨t, ht⟩ := Option.isSome_iff_exists.mp h
  simp [switchConflict, conflict, ht]

theorem switchConflict_of_not_known {ε : Type} {e : AbufEntry} {mem : Mem}
    {default : Except ε Bool} (h : ¬ e.Known) : e.switchConflict mem default = default := by
  have hnone : UIntTy.ofSize? e.size = none := by simpa [Known] using h
  simp [switchConflict, hnone]

theorem switchConflict_ne_error {ε : Type} {e : AbufEntry} {mem : Mem} {default : Except ε Bool}
    {s : ε} (h : default ≠ .error s) : e.switchConflict mem default ≠ .error s := by
  by_cases hknown : e.Known
  · rw [switchConflict_of_known hknown]
    exact ok_ne_error _ _
  · rwa [switchConflict_of_not_known hknown]

end AbufEntry

namespace Abuf

/-- The entries below `k` that differ from memory, by index. -/
def conflictsBelow (a : Abuf) (mem : Mem) (k : Nat) : List Nat :=
  (List.range' 0 k).filter (fun i => (a.buf i).conflict mem)

/-- The entries of the log that differ from memory, by index. -/
def conflicts (a : Abuf) (mem : Mem) : List Nat := a.conflictsBelow mem a.pushed

theorem mem_conflicts {a : Abuf} {mem : Mem} {i : Nat} :
    i ∈ a.conflicts mem ↔ i < a.pushed ∧ (a.buf i).conflict mem = true := by
  simp [conflicts, conflictsBelow]

/-- Another entry has the address of entry `i`. -/
def HasDuplicate (a : Abuf) (i : Nat) : Prop :=
  ∃ j < a.pushed, j ≠ i ∧ (a.buf j).addr = (a.buf i).addr

/-- A later entry has the address of entry `i`. -/
def HasLater (a : Abuf) (i : Nat) : Prop :=
  ∃ j < a.pushed, i < j ∧ (a.buf j).addr = (a.buf i).addr

theorem entryAt_eq_ok {a : Abuf} {i : Nat} {e : AbufEntry} :
    a.entryAt i = .ok e ↔ i < a.maxSize ∧ e = a.buf i := by
  rw [entryAt, seq_eq_ok, inBounds_eq_ok, pure_eq_ok, Except.ok.injEq, eq_comm (a := a.buf i)]

theorem entryAt_of_lt {a : Abuf} {i : Nat} (h : i < a.maxSize) : a.entryAt i = .ok (a.buf i) :=
  entryAt_eq_ok.mpr ⟨h, rfl⟩

/-! ## abuf_cmp_heap -/

/-- One iteration of the entry loop of `abuf_cmp_heap`. Both `poped` counters move
together, so entry `i` of `a1` meets the entry of `a2` at the same distance. -/
def cmpHeapVisit (b : Build) (a1 a2 : Abuf) (mem : Mem) (i : Nat) : Exec Bool := do
  let e1 ← a1.entryAt i
  let e2 ← a2.entryAt (a2.poped + (i - a1.poped))
  b.assert (e1.size = e2.size) "e1->size == e2->size"
  failIfn (e1.addr = e2.addr) "addresses differ"
  e1.switchConflict mem do
    b.assert False "unknown case"
    return false

/-- The checks around `entry[nentry++] = e` in `ABUF_CONFLICT`. -/
def cmpHeapRoom (nentry : Nat) : Exec Unit := do
  failIfn (nentry ≤ abufMaxConflicts) "too many conflicts"
  inBounds (nentry < abufMaxConflicts) "entry"

/-- The search `for (j = a1->pushed-1; j >= 0; --j)` for an address. -/
def lastAt (a : Abuf) (addr : Nat) : Nat → Option Nat
  | 0 => none
  | j + 1 => if addr = (a.buf j).addr then some j else lastAt a addr j

/-- The message about a conflict that nothing excuses. -/
def notDuplicate (a1 a2 : Abuf) (mem : Mem) (idx : Nat) : Stop :=
  let ce := a1.buf idx
  let exp1 (t : UIntTy) := if idx < a2.pushed then (a2.buf idx).wvalue.wvax t ce.addr else 0
  let args (t : UIntTy) :=
    [ce.addr, ce.size, load mem ce.addr t.sizeof, ce.wvax t, exp1 t, idx]
  match UIntTy.ofSize? ce.size with
  | some .uint8 =>
      .fail "not duplicate! addr=%p size=%lu cur=0x%02x exp0=0x%02x exp1=0x%02x idx=%d"
        (args .uint8)
  | some .uint16 =>
      .fail "not duplicate! addr=%p size=%lu cur=0x%04x exp0=0x%04x exp1=0x%04x idx=%d"
        (args .uint16)
  | some .uint32 =>
      .fail "not duplicate! addr=%p size=%lu cur=0x%08x exp0=0x%08x exp1=0x%08x idx=%d"
        (args .uint32)
  | some .uint64 =>
      .fail "not duplicate! addr=%p size=%lu cur=0x%016lx exp0=0x%016lx exp1=0x%016lx idx=%d"
        (args .uint64)
  | none => .fail "not duplicate! addr=%p size=%lu idx=%d" [ce.addr, ce.size, idx]

/-- The check of one conflicting entry, given by its index. -/
def cmpHeapConflict (b : Build) (a1 a2 : Abuf) (mem : Mem) (ce : Nat) : Exec Unit :=
  match a1.lastAt (a1.buf ce).addr a1.pushed with
  | some j => if ce = j then .error (notDuplicate a1 a2 mem ce) else .ok ()
  | none => b.assert False "ce not found"

/-- `abuf_cmp_heap`. It leaves both `poped` counters past the entries it read. -/
def cmpHeap (b : Build) (a1 a2 : Abuf) (mem : Mem) : Exec (Abuf × Abuf) := do
  b.assert (b.redundancy = 2) "SEI_DMR_REDUNDANCY == 2"
  b.assert (a1.pushed = a2.pushed) "a1->pushed == a2->pushed"
  b.assert (a1.poped = a2.poped) "a1->poped == a2->poped"
  b.assert (a1.poped = 0) "a1->poped == 0"
  let n := a1.pushed - a1.poped
  let entry ← collect (cmpHeapVisit b a1 a2 mem) cmpHeapRoom n a1.poped []
  checkEach (cmpHeapConflict b a1 a2 mem) entry
  return ({ a1 with poped := a1.poped + n }, { a2 with poped := a2.poped + n })

/-! ## What `abuf_cmp_heap` accepts -/

theorem cmpHeapRoom_eq_ok {n : Nat} {u : Unit} :
    cmpHeapRoom n = .ok u ↔ n < abufMaxConflicts := by
  rw [cmpHeapRoom, seq_eq_ok, failIfn_eq_ok, inBounds_eq_ok]
  omega

theorem switchConflict_assert {b : Build} {e : AbufEntry} {mem : Mem} {c : Bool} :
    (e.switchConflict mem (do b.assert False "unknown case"; return false) : Exec Bool) = .ok c ↔
      (b.ndebug = true ∨ e.Known) ∧ c = e.conflict mem := by
  by_cases hknown : e.Known
  · rw [AbufEntry.switchConflict_of_known hknown, Except.ok.injEq, eq_comm]
    simp [hknown]
  · rw [AbufEntry.switchConflict_of_not_known hknown, seq_eq_ok, Build.assert_eq_ok,
      AbufEntry.conflict_of_not_known hknown]
    simp only [hknown, or_false, pure_eq_ok, Except.ok.injEq, @eq_comm _ false c]

/-- What the entry loops that use `assert` require of entry `i` of another log. -/
structure EntryMatches (b : Build) (a a' : Abuf) (i : Nat) : Prop where
  inBounds : i < a'.maxSize
  addr : (a.buf i).addr = (a'.buf i).addr
  size : b.ndebug = true ∨ (a.buf i).size = (a'.buf i).size

section CmpHeap

variable {b : Build} {a1 a2 : Abuf} {mem : Mem} {i ce : Nat}

/-- Entry `i` of the first log and the one it meets pass the checks of the loop. -/
def Passes (b : Build) (a1 a2 : Abuf) (i : Nat) : Prop :=
  let j := a2.poped + (i - a1.poped)
  j < a2.maxSize ∧ (b.ndebug = true ∨ (a1.buf i).size = (a2.buf j).size) ∧
    (a1.buf i).addr = (a2.buf j).addr ∧ (b.ndebug = true ∨ (a1.buf i).Known)

instance : Decidable (Passes b a1 a2 i) := inferInstanceAs (Decidable (_ ∧ _ ∧ _ ∧ _))

/-- In rewound logs an entry meets the one with its own index. -/
theorem passes_iff (h1 : a1.poped = 0) (h2 : a2.poped = 0) : Passes b a1 a2 i ↔
    EntryMatches b a1 a2 i ∧ (b.ndebug = true ∨ (a1.buf i).Known) := by
  rw [Passes, h1, h2, Nat.sub_zero, Nat.zero_add]
  constructor
  · rintro ⟨hmax, hsize, haddr, hknown⟩
    exact ⟨⟨hmax, haddr, hsize⟩, hknown⟩
  · rintro ⟨⟨hmax, haddr, hsize⟩, hknown⟩
    exact ⟨hmax, hsize, haddr, hknown⟩

theorem cmpHeapVisit_eq_ok_iff_passes (hi : i < a1.pushed) {c : Bool} :
    cmpHeapVisit b a1 a2 mem i = .ok c ↔ Passes b a1 a2 i ∧ c = (a1.buf i).conflict mem := by
  have hmax : i < a1.maxSize := Nat.lt_of_lt_of_le hi a1.pushed_le
  simp only [cmpHeapVisit, entryAt_of_lt hmax, ok_bind, bind_eq_ok, entryAt_eq_ok,
    Build.assert_eq_ok, failIfn_eq_ok, switchConflict_assert]
  constructor
  · rintro ⟨_, ⟨hj, rfl⟩, _, hsize, _, haddr, hknown, hc⟩
    exact ⟨⟨hj, hsize, haddr, hknown⟩, hc⟩
  · rintro ⟨⟨hj, hsize, haddr, hknown⟩, hc⟩
    exact ⟨_, ⟨hj, rfl⟩, (), hsize, (), haddr, hknown, hc⟩

theorem cmpHeapVisit_eq_ok (h1 : a1.poped = 0) (h2 : a2.poped = 0) (hi : i < a1.pushed)
    {c : Bool} : cmpHeapVisit b a1 a2 mem i = .ok c ↔
      (EntryMatches b a1 a2 i ∧ (b.ndebug = true ∨ (a1.buf i).Known)) ∧
        c = (a1.buf i).conflict mem := by
  rw [cmpHeapVisit_eq_ok_iff_passes hi, passes_iff h1 h2]

theorem lastAt_eq_some {a : Abuf} {addr n j : Nat} : a.lastAt addr n = some j ↔
    j < n ∧ (a.buf j).addr = addr ∧ ∀ k, j < k → k < n → (a.buf k).addr ≠ addr := by
  induction n with
  | zero => simp [lastAt]
  | succ n ih =>
    rw [lastAt]
    split
    · next heq =>
      rw [Option.some.injEq]
      constructor
      · rintro rfl
        exact ⟨by omega, heq.symm, fun k hlt hle => by omega⟩
      · rintro ⟨hj, _, hlast⟩
        by_contra hne
        exact hlast n (by omega) (by omega) heq.symm
    · next hne =>
      rw [ih]
      constructor
      · rintro ⟨hj, haddr, hlast⟩
        refine ⟨by omega, haddr, fun k hlt hle => ?_⟩
        rcases Nat.lt_succ_iff_lt_or_eq.mp hle with hk | rfl
        · exact hlast k hlt hk
        · exact fun h => hne h.symm
      · rintro ⟨hj, haddr, hlast⟩
        have hjn : j ≠ n := fun h => hne (by rw [← haddr, h])
        exact ⟨by omega, haddr, fun k hlt hk => hlast k hlt (by omega)⟩

/-- Searching for the address of an entry of the log finds the entry itself or a
later one. -/
theorem lastAt_of_lt {a : Abuf} {i n : Nat} (hi : i < n) :
    ∃ j, i ≤ j ∧ a.lastAt (a.buf i).addr n = some j := by
  induction n with
  | zero => omega
  | succ n ih =>
    rw [lastAt]
    split
    · exact ⟨n, by omega, rfl⟩
    · next hne =>
      have hin : i ≠ n := fun h => hne (by rw [h])
      exact ih (by omega)

theorem cmpHeapConflict_of_later (h : a1.HasLater ce) :
    cmpHeapConflict b a1 a2 mem ce = .ok () := by
  obtain ⟨k, hk, hlt, hkaddr⟩ := h
  obtain ⟨j, hle, hj⟩ := lastAt_of_lt (a := a1) hk
  rw [cmpHeapConflict, ← hkaddr, hj]
  simp only [show ce ≠ j by omega, if_false]

theorem cmpHeapConflict_of_not_later (hce : ce < a1.pushed) (h : ¬ a1.HasLater ce) :
    cmpHeapConflict b a1 a2 mem ce = .error (notDuplicate a1 a2 mem ce) := by
  obtain ⟨j, hle, hj⟩ := lastAt_of_lt (a := a1) hce
  obtain ⟨hjn, haddr, _⟩ := lastAt_eq_some.mp hj
  have heq : ce = j := by
    by_contra hne
    exact h ⟨j, hjn, by omega, haddr⟩
  rw [cmpHeapConflict, hj]
  simp only [heq, if_true]

/-- A conflict is excused exactly by a later entry with its address. -/
theorem cmpHeapConflict_eq_ok (hce : ce < a1.pushed) {u : Unit} :
    cmpHeapConflict b a1 a2 mem ce = .ok u ↔ a1.HasLater ce := by
  by_cases h : a1.HasLater ce
  · simp [cmpHeapConflict_of_later h, h]
  · simp [cmpHeapConflict_of_not_later hce h, h]

theorem cmpHeapCollect_eq_ok (h1 : a1.poped = 0) (h2 : a2.poped = 0) {entry : List Nat} :
    collect (cmpHeapVisit b a1 a2 mem) cmpHeapRoom a1.pushed 0 [] = .ok entry ↔
      (∀ i < a1.pushed, EntryMatches b a1 a2 i ∧ (b.ndebug = true ∨ (a1.buf i).Known)) ∧
      entry = a1.conflicts mem ∧ entry.length ≤ abufMaxConflicts :=
  collect_capped_eq_ok (fun _ hi _ => cmpHeapVisit_eq_ok h1 h2 hi) (fun _ => cmpHeapRoom_eq_ok)

theorem cmpHeapConflicts_eq_ok {u : Unit} :
    checkEach (cmpHeapConflict b a1 a2 mem) (a1.conflicts mem) = .ok u ↔
      ∀ ce ∈ a1.conflicts mem, a1.HasLater ce := by
  rw [checkEach_eq_ok]
  exact forall₂_congr fun ce hce => cmpHeapConflict_eq_ok (mem_conflicts.mp hce).1

/-- The log pairs `abuf_cmp_heap` accepts, for rewound logs. -/
theorem cmpHeap_returns (h1 : a1.poped = 0) (h2 : a2.poped = 0) :
    (∃ r, cmpHeap b a1 a2 mem = .ok r) ↔
      (b.ndebug = true ∨ b.redundancy = 2) ∧ (b.ndebug = true ∨ a1.pushed = a2.pushed) ∧
      (∀ i < a1.pushed, EntryMatches b a1 a2 i ∧ (b.ndebug = true ∨ (a1.buf i).Known)) ∧
      (a1.conflicts mem).length ≤ abufMaxConflicts ∧
      ∀ ce ∈ a1.conflicts mem, a1.HasLater ce := by
  simp only [cmpHeap, h1, h2, Nat.sub_zero, bind_eq_ok, Build.assert_eq_ok, pure_eq_ok,
    cmpHeapCollect_eq_ok h1 h2]
  constructor
  · rintro ⟨r, _, hred, _, hpushed, _, _, _, _, entry, ⟨hvisit, rfl, hcap⟩, _, hdup, _⟩
    exact ⟨hred, hpushed, hvisit, hcap, cmpHeapConflicts_eq_ok.mp hdup⟩
  · rintro ⟨hred, hpushed, hvisit, hcap, hdup⟩
    exact ⟨_, (), hred, (), hpushed, (), .inr trivial, (), .inr trivial, _,
      ⟨hvisit, rfl, hcap⟩, (), cmpHeapConflicts_eq_ok.mpr hdup, rfl⟩

/-! ## When `abuf_cmp_heap` reports an error -/

theorem fails_entryAt {a : Abuf} {i : Nat} : Exec.Fails (a.entryAt i) ↔ False := by
  rw [entryAt, Exec.fails_bind]
  simp

theorem fails_switchConflict_assert {e : AbufEntry} :
    Exec.Fails (e.switchConflict mem (do b.assert False "unknown case"; return false)) ↔
      False := by
  by_cases hknown : e.Known
  · rw [AbufEntry.switchConflict_of_known hknown, Exec.fails_ok]
  · rw [AbufEntry.switchConflict_of_not_known hknown, Exec.fails_bind]
    simp

/-- Of the checks on one pair of entries only the one on the addresses reports. -/
theorem fails_cmpHeapVisit (h1 : a1.poped = 0) (h2 : a2.poped = 0) (hi : i < a1.pushed) :
    Exec.Fails (cmpHeapVisit b a1 a2 mem i) ↔
      i < a2.maxSize ∧ (b.ndebug = true ∨ (a1.buf i).size = (a2.buf i).size) ∧
        (a1.buf i).addr ≠ (a2.buf i).addr := by
  have hmax : i < a1.maxSize := Nat.lt_of_lt_of_le hi a1.pushed_le
  simp only [cmpHeapVisit, h1, h2, Nat.zero_add, Nat.sub_zero, entryAt_of_lt hmax, ok_bind,
    Exec.fails_bind, fails_entryAt, entryAt_eq_ok, Build.fails_assert, Build.assert_eq_ok,
    fails_failIfn, fails_switchConflict_assert, and_false, exists_false, or_false, false_or]
  constructor
  · rintro ⟨_, ⟨hb, rfl⟩, _, hsize, haddr⟩
    exact ⟨hb, hsize, haddr⟩
  · rintro ⟨hb, hsize, haddr⟩
    exact ⟨_, ⟨hb, rfl⟩, (), hsize, haddr⟩

theorem isFail_notDuplicate (idx : Nat) : (notDuplicate a1 a2 mem idx).IsFail := by
  rcases h : UIntTy.ofSize? (a1.buf idx).size with _ | (_ | _ | _ | _) <;>
    simp [notDuplicate, h, Stop.IsFail]

theorem fails_cmpHeapRoom {k : Nat} :
    Exec.Fails (cmpHeapRoom k) ↔ ¬ k ≤ abufMaxConflicts := by
  rw [cmpHeapRoom, Exec.fails_bind]
  simp

/-- The release build leaves the entry loop with a report at the first pair of entries
with different addresses. A collection that still fits never reports: the bounds of
`entry` are exceeded first. -/
theorem fails_cmpHeapCollect (hb : b.ndebug = true) (h1 : a1.poped = 0) (h2 : a2.poped = 0) :
    Exec.Fails (collect (cmpHeapVisit b a1 a2 mem) cmpHeapRoom a1.pushed 0 []) ↔
      ∃ k < a1.pushed, (∀ i < k, EntryMatches b a1 a2 i) ∧
        (a1.conflictsBelow mem k).length ≤ abufMaxConflicts ∧
        k < a2.maxSize ∧ (a1.buf k).addr ≠ (a2.buf k).addr := by
  refine (collect_capped_error_of_kind (fun _ hi _ => cmpHeapVisit_eq_ok h1 h2 hi)
    (fun _ => cmpHeapRoom_eq_ok)).trans ?_
  refine exists_congr fun k => and_congr_right fun hk => ?_
  simp only [hb, true_or, and_true]
  refine and_congr_right fun _ => and_congr_right fun hcap => ?_
  constructor
  · rintro (hvisit | ⟨_, _, hroom⟩)
    · obtain ⟨hmax, _, haddr⟩ := (fails_cmpHeapVisit h1 h2 hk).mp hvisit
      exact ⟨hmax, haddr⟩
    · exact absurd hcap (fails_cmpHeapRoom.mp hroom)
  · rintro ⟨hmax, haddr⟩
    exact .inl ((fails_cmpHeapVisit h1 h2 hk).mpr ⟨hmax, .inl hb, haddr⟩)

theorem fails_cmpHeapConflicts :
    Exec.Fails (checkEach (cmpHeapConflict b a1 a2 mem) (a1.conflicts mem)) ↔
      ∃ ce ∈ a1.conflicts mem, ¬ a1.HasLater ce := by
  refine (checkEach_error_of_kind ?_).trans (exists_congr fun ce => and_congr_right fun hce => ?_)
  · intro ce hce e he
    by_cases hlater : a1.HasLater ce
    · rw [cmpHeapConflict_of_later hlater] at he
      cases he
    · rw [cmpHeapConflict_of_not_later (mem_conflicts.mp hce).1 hlater] at he
      cases he
      exact isFail_notDuplicate ce
  · rw [ne_eq, cmpHeapConflict_eq_ok (mem_conflicts.mp hce).1]

/-- The log pairs on which the release build of `abuf_cmp_heap` reports an error: at
the first pair of entries with different addresses, or at a conflict that no later
entry excuses. -/
theorem fails_cmpHeap (hb : b.ndebug = true) (h1 : a1.poped = 0) (h2 : a2.poped = 0) :
    Exec.Fails (cmpHeap b a1 a2 mem) ↔
      (∃ k < a1.pushed, (∀ i < k, EntryMatches b a1 a2 i) ∧
        (a1.conflictsBelow mem k).length ≤ abufMaxConflicts ∧
        k < a2.maxSize ∧ (a1.buf k).addr ≠ (a2.buf k).addr) ∨
      ((∀ i < a1.pushed, EntryMatches b a1 a2 i) ∧
        (a1.conflicts mem).length ≤ abufMaxConflicts ∧
        ∃ ce ∈ a1.conflicts mem, ¬ a1.HasLater ce) := by
  simp only [cmpHeap, h1, h2, Nat.sub_zero, Build.assert_of_ndebug hb, ok_bind, Exec.fails_bind,
    fails_cmpHeapCollect hb h1 h2, cmpHeapCollect_eq_ok h1 h2, hb, true_or, and_true, pure_eq_ok,
    Exec.fails_ok, and_false, exists_false, or_false]
  refine or_congr Iff.rfl ?_
  constructor
  · rintro ⟨entry, ⟨hmatch, rfl, hcap⟩, hdup⟩
    exact ⟨hmatch, hcap, fails_cmpHeapConflicts.mp hdup⟩
  · rintro ⟨hmatch, hcap, hdup⟩
    exact ⟨_, ⟨hmatch, rfl, hcap⟩, fails_cmpHeapConflicts.mpr hdup⟩

end CmpHeap

/-! ## abuf_try_cmp_heap -/

/-- One iteration of the entry loop of `abuf_try_cmp_heap`. -/
def tryCmpHeapVisit (a1 a2 : Abuf) (mem : Mem) (i : Nat) : Checks Bool := do
  let e1 ← Checks.ofExec (a1.entryAt i)
  let e2 ← Checks.ofExec (a2.entryAt (a2.poped + (i - a1.poped)))
  Checks.unlessReturnZero (e1.size = e2.size)
  Checks.unlessReturnZero (e1.addr = e2.addr)
  e1.switchConflict mem (.error .returnZero)

/-- The checks around `entry[nentry++]` in the functions that answer 0 or 1. -/
def tryCmpHeapRoom (nentry : Nat) : Checks Unit := do
  Checks.unlessReturnZero (nentry < abufMaxConflicts)
  Checks.ofExec (inBounds (nentry < abufMaxConflicts) "entry")

/-- The search for an entry other than `ce` with the address of `ce`. -/
def findDuplicate (a : Abuf) (ce : Nat) : Nat → Bool
  | 0 => false
  | j + 1 =>
      if (a.buf ce).addr = (a.buf j).addr then
        if ce ≠ j then true else findDuplicate a ce j
      else findDuplicate a ce j

/-- The checks of `abuf_try_cmp_heap` between the saving and the restoring of the
`poped` counters. -/
def tryCmpHeapChecks (a1 a2 : Abuf) (mem : Mem) : Checks Unit := do
  Checks.unlessReturnZero (a1.pushed = a2.pushed)
  Checks.unlessReturnZero (a1.poped = a2.poped)
  Checks.unlessReturnZero (a1.poped = 0)
  let n := a1.pushed - a1.poped
  let entry ← collect (tryCmpHeapVisit a1 a2 mem) tryCmpHeapRoom n a1.poped []
  checkEach (fun ce => Checks.unlessReturnZero (a1.findDuplicate ce a1.pushed = true)) entry

/-- `abuf_try_cmp_heap`. Every exit puts the saved `poped` counters back. -/
def tryCmpHeap (b : Build) (a1 a2 : Abuf) (mem : Mem) : Exec (Bool × Abuf × Abuf) := do
  b.assert (b.redundancy = 2) "SEI_DMR_REDUNDANCY == 2"
  let savedA1 := a1.poped
  let savedA2 := a2.poped
  let result ← (tryCmpHeapChecks a1 a2 mem).verdict
  return (result, { a1 with poped := savedA1 }, { a2 with poped := savedA2 })

/-! ## What may stop `abuf_try_cmp_heap` -/

section Stops

variable {a1 a2 : Abuf} {mem : Mem} {e : Stop}

theorem tryCmpHeapRoom_ne_stop {k : Nat} : tryCmpHeapRoom k ≠ .error (.stop e) := by
  refine bind_ne_error Checks.unlessReturnZero_ne_stop fun _ hk => ?_
  rw [inBounds_of (Checks.unlessReturnZero_eq_ok.mp hk)]
  exact ok_ne_error _ _

theorem switchConflict_returnZero_ne_stop {e0 : AbufEntry} :
    (e0.switchConflict mem (.error .returnZero) : Checks Bool) ≠ .error (.stop e) :=
  AbufEntry.switchConflict_ne_error fun hstop => by cases hstop

theorem tryCmpHeapVisit_ne_stop {i : Nat} (he : e ≠ .outOfBounds "abuf->buf") :
    tryCmpHeapVisit a1 a2 mem i ≠ .error (.stop e) := by
  refine bind_ne_error (Checks.ofExec_ne_stop (entryAt_ne_error he)) fun e1 _ => ?_
  refine bind_ne_error (Checks.ofExec_ne_stop (entryAt_ne_error he)) fun e2 _ => ?_
  refine bind_ne_error Checks.unlessReturnZero_ne_stop fun _ _ => ?_
  exact bind_ne_error Checks.unlessReturnZero_ne_stop fun _ _ => switchConflict_returnZero_ne_stop

/-- The checks read entries and answer otherwise. -/
theorem tryCmpHeapChecks_ne_stop (he : e ≠ .outOfBounds "abuf->buf") :
    tryCmpHeapChecks a1 a2 mem ≠ .error (.stop e) := by
  refine bind_ne_error Checks.unlessReturnZero_ne_stop fun _ _ => ?_
  refine bind_ne_error Checks.unlessReturnZero_ne_stop fun _ _ => ?_
  refine bind_ne_error Checks.unlessReturnZero_ne_stop fun _ _ => ?_
  refine bind_ne_error (collect_ne_error (fun _ => tryCmpHeapVisit_ne_stop he)
    fun _ => tryCmpHeapRoom_ne_stop) fun entry _ => ?_
  exact checkEach_ne_error fun _ _ => Checks.unlessReturnZero_ne_stop

end Stops

/-! ## What `abuf_try_cmp_heap` accepts -/

theorem findDuplicate_eq_true {a : Abuf} {ce n : Nat} : a.findDuplicate ce n = true ↔
    ∃ j < n, j ≠ ce ∧ (a.buf j).addr = (a.buf ce).addr := by
  induction n with
  | zero => simp [findDuplicate]
  | succ n ih =>
    have hsplit : (∃ j < n + 1, j ≠ ce ∧ (a.buf j).addr = (a.buf ce).addr) ↔
        (n ≠ ce ∧ (a.buf n).addr = (a.buf ce).addr) ∨
          ∃ j < n, j ≠ ce ∧ (a.buf j).addr = (a.buf ce).addr := by
      simp only [Nat.lt_succ_iff_lt_or_eq, or_and_right, exists_or, exists_eq_left, or_comm]
    rw [findDuplicate, hsplit, ← ih]
    by_cases haddr : (a.buf ce).addr = (a.buf n).addr
    · by_cases hne : ce = n
      · simp [hne]
      · simp [haddr, hne, Ne.symm hne]
    · simp [haddr, Ne.symm haddr]

theorem tryCmpHeapRoom_eq_ok {n : Nat} {u : Unit} :
    tryCmpHeapRoom n = .ok u ↔ n < abufMaxConflicts := by
  rw [tryCmpHeapRoom, seq_eq_ok, Checks.unlessReturnZero_eq_ok, Checks.ofExec_eq_ok,
    inBounds_eq_ok, and_self]

theorem switchConflict_returnZero {e : AbufEntry} {mem : Mem} {c : Bool} :
    (e.switchConflict mem (.error .returnZero) : Checks Bool) = .ok c ↔
      e.Known ∧ c = e.conflict mem := by
  by_cases hknown : e.Known
  · rw [AbufEntry.switchConflict_of_known hknown, Except.ok.injEq, eq_comm]
    simp [hknown]
  · rw [AbufEntry.switchConflict_of_not_known hknown]
    simp [hknown]

/-- The entries at `i` of two logs name the same location. -/
structure SameLocation (a a' : Abuf) (i : Nat) : Prop where
  addr : (a.buf i).addr = (a'.buf i).addr
  size : (a.buf i).size = (a'.buf i).size

section TryCmpHeap

variable {b : Build} {a1 a2 : Abuf} {mem : Mem} {i : Nat}

theorem tryCmpHeapVisit_eq_ok (h1 : a1.poped = 0) (h2 : a2.poped = 0)
    (hpushed : a1.pushed = a2.pushed) (hi : i < a1.pushed) {c : Bool} :
    tryCmpHeapVisit a1 a2 mem i = .ok c ↔
      (SameLocation a1 a2 i ∧ (a1.buf i).Known) ∧ c = (a1.buf i).conflict mem := by
  have hmax1 : i < a1.maxSize := Nat.lt_of_lt_of_le hi a1.pushed_le
  have hmax2 : i < a2.maxSize := Nat.lt_of_lt_of_le (hpushed ▸ hi) a2.pushed_le
  simp only [tryCmpHeapVisit, h1, h2, Nat.zero_add, Nat.sub_zero, entryAt_of_lt hmax1,
    entryAt_of_lt hmax2, Checks.ofExec, ok_bind, seq_eq_ok, Checks.unlessReturnZero_eq_ok,
    switchConflict_returnZero]
  constructor
  · rintro ⟨hsize, haddr, hknown, hc⟩
    exact ⟨⟨⟨haddr, hsize⟩, hknown⟩, hc⟩
  · rintro ⟨⟨⟨haddr, hsize⟩, hknown⟩, hc⟩
    exact ⟨hsize, haddr, hknown, hc⟩

theorem tryCmpHeapChecks_eq_ok {u : Unit} : tryCmpHeapChecks a1 a2 mem = .ok u ↔
    a1.poped = 0 ∧ a2.poped = 0 ∧ a1.pushed = a2.pushed ∧
      (∀ i < a1.pushed, SameLocation a1 a2 i ∧ (a1.buf i).Known) ∧
      (a1.conflicts mem).length ≤ abufMaxConflicts ∧
      ∀ ce ∈ a1.conflicts mem, a1.HasDuplicate ce := by
  have hcheck : checkEach (fun ce => Checks.unlessReturnZero (a1.findDuplicate ce a1.pushed = true))
      (a1.conflicts mem) = .ok () ↔ ∀ ce ∈ a1.conflicts mem, a1.HasDuplicate ce := by
    simp only [checkEach_eq_ok, Checks.unlessReturnZero_eq_ok, findDuplicate_eq_true]
    rfl
  have hcollect : a1.poped = 0 → a2.poped = 0 → a1.pushed = a2.pushed → ∀ entry,
      collect (tryCmpHeapVisit a1 a2 mem) tryCmpHeapRoom a1.pushed 0 [] = .ok entry ↔
        (∀ i < a1.pushed, SameLocation a1 a2 i ∧ (a1.buf i).Known) ∧
        entry = a1.conflicts mem ∧ entry.length ≤ abufMaxConflicts := fun h1 h2 hpushed _ =>
    collect_capped_eq_ok (fun i hi c => tryCmpHeapVisit_eq_ok h1 h2 hpushed hi)
      (fun _ => tryCmpHeapRoom_eq_ok)
  simp only [tryCmpHeapChecks, bind_eq_ok, exists_const, Checks.unlessReturnZero_eq_ok]
  constructor
  · rintro ⟨hpushed, hpoped, h1, entry, hentry, hdup⟩
    have h2 : a2.poped = 0 := hpoped ▸ h1
    rw [h1, Nat.sub_zero] at hentry
    obtain ⟨hmatch, rfl, hcap⟩ := (hcollect h1 h2 hpushed _).mp hentry
    exact ⟨h1, h2, hpushed, hmatch, hcap, hcheck.mp hdup⟩
  · rintro ⟨h1, h2, hpushed, hmatch, hcap, hdup⟩
    refine ⟨hpushed, by rw [h1, h2], h1, a1.conflicts mem, ?_, hcheck.mpr hdup⟩
    rw [h1, Nat.sub_zero]
    exact (hcollect h1 h2 hpushed _).mpr ⟨hmatch, rfl, hcap⟩

/-- The log pairs on which `abuf_try_cmp_heap` returns 1. -/
theorem tryCmpHeap_returns_one : Prod.fst <$> tryCmpHeap b a1 a2 mem = .ok true ↔
    (b.ndebug = true ∨ b.redundancy = 2) ∧ a1.poped = 0 ∧ a2.poped = 0 ∧
      a1.pushed = a2.pushed ∧
      (∀ i < a1.pushed, SameLocation a1 a2 i ∧ (a1.buf i).Known) ∧
      (a1.conflicts mem).length ≤ abufMaxConflicts ∧
      ∀ ce ∈ a1.conflicts mem, a1.HasDuplicate ce := by
  rw [← tryCmpHeapChecks_eq_ok (u := ()), ← Checks.verdict_eq_true, tryCmpHeap]
  by_cases hred : b.ndebug = true ∨ b.redundancy = 2
  · rw [(Build.assert_eq_ok (u := ())).mpr hred, ok_bind]
    cases (tryCmpHeapChecks a1 a2 mem).verdict <;> simp [hred, Functor.map, Except.map]
  · rw [Build.assert, require_of_not hred, error_bind]
    simp [hred, Functor.map, Except.map]

end TryCmpHeap

end Abuf

end LibSei
