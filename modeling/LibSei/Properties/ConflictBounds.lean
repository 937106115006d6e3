-- SUMMARY: The array of conflicts in the four comparisons: three of them stay inside it, and the logs on which `abuf_cmp_heap` does.
import LibSei.Abuf.Logs
import Mathlib.Data.List.TakeWhile

/-!
# The array of conflicts

The comparisons collect the entries that differ from memory in an array of `ABUF_MAX_CONFLICTS`
pointers on the stack. Before another one is stored three of them require that fewer have been
collected; `abuf_cmp_heap` requires that no more have been.
-/

namespace LibSei

open Memory Control

/-- The run comes to a store `entry[nentry++]` whose index is not below `ABUF_MAX_CONFLICTS`. -/
def Overruns {α : Type} (x : Exec α) : Prop := x = .error (.outOfBounds "entry")

namespace Abuf

variable {b : Build} {a a1 a2 : Abuf} {buffers : Nat → Abuf} {mem : Mem} {i k n : Nat}

theorem entryAt_ne : a.entryAt i ≠ .error (.outOfBounds "entry") := entryAt_ne_error (by decide)

theorem switchConflict_assert_ne {e : AbufEntry} :
    (e.switchConflict mem (do b.assert False "unknown case"; return false) : Exec Bool) ≠
      .error (.outOfBounds "entry") :=
  AbufEntry.switchConflict_ne_error
    (bind_ne_error Build.assert_ne_outOfBounds fun _ _ => ok_ne_error _ _)

/-! ## abuf_cmp_heap -/

/-- The assertions before the entry loop. -/
def Enters (b : Build) (a1 a2 : Abuf) : Prop :=
  b.ndebug = true ∨
    b.redundancy = 2 ∧ a1.pushed = a2.pushed ∧ a1.poped = a2.poped ∧ a1.poped = 0

/-- The entries the loop visits before the first that does not pass. -/
def passed (b : Build) (a1 a2 : Abuf) : List Nat :=
  (List.range' a1.poped (a1.pushed - a1.poped)).takeWhile fun i => decide (Passes b a1 a2 i)

/-- The conflicts among them. -/
def passedConflicts (b : Build) (a1 a2 : Abuf) (mem : Mem) : List Nat :=
  (passed b a1 a2).filter fun i => (a1.buf i).conflict mem

theorem cmpHeapVisit_ne : cmpHeapVisit b a1 a2 mem i ≠ .error (.outOfBounds "entry") := by
  refine bind_ne_error entryAt_ne fun e1 _ => bind_ne_error entryAt_ne fun e2 _ => ?_
  refine bind_ne_error Build.assert_ne_outOfBounds fun _ _ => ?_
  exact bind_ne_error failIfn_ne_outOfBounds fun _ _ => switchConflict_assert_ne

theorem cmpHeapConflict_ne {ce : Nat} :
    cmpHeapConflict b a1 a2 mem ce ≠ .error (.outOfBounds "entry") := by
  rw [cmpHeapConflict]
  split
  · split
    · intro hstop
      have hfail : (notDuplicate a1 a2 mem ce).IsFail := isFail_notDuplicate ce
      rw [Except.error.inj hstop] at hfail
      exact hfail
    · exact ok_ne_error _ _
  · exact Build.assert_ne_outOfBounds

/-- The guard lets one store too many through. -/
theorem cmpHeapRoom_full : cmpHeapRoom abufMaxConflicts = .error (.outOfBounds "entry") := by
  rw [cmpHeapRoom, failIfn_of (le_refl _), ok_bind]
  exact require_of_not (lt_irrefl _)

theorem cmpHeapCollect_overruns_iff :
    collect (cmpHeapVisit b a1 a2 mem) cmpHeapRoom (a1.pushed - a1.poped) a1.poped [] =
        .error (.outOfBounds "entry") ↔
      abufMaxConflicts < (passedConflicts b a1 a2 mem).length := by
  have hvisit : ∀ i, a1.poped ≤ i → i < a1.poped + (a1.pushed - a1.poped) → ∀ c,
      cmpHeapVisit b a1 a2 mem i = .ok c ↔ Passes b a1 a2 i ∧ c = (a1.buf i).conflict mem :=
    fun i hlo hhi c => cmpHeapVisit_eq_ok_iff_passes (by omega)
  have hiff := collect_full_iff hvisit (fun _ => cmpHeapVisit_ne)
    (fun k hk => cmpHeapRoom_eq_ok.mpr hk) cmpHeapRoom_full
    (show ([] : List Nat).length ≤ abufMaxConflicts from Nat.zero_le _)
  rwa [List.length_nil, Nat.zero_add] at hiff

theorem cmpHeap_overruns_iff : Overruns (cmpHeap b a1 a2 mem) ↔
    Enters b a1 a2 ∧ abufMaxConflicts < (passedConflicts b a1 a2 mem).length := by
  rw [Overruns, cmpHeap, ← cmpHeapCollect_overruns_iff]
  simp only [Build.assert_bind_eq_outOfBounds]
  constructor
  · rintro ⟨hred, hpushed, hsame, hzero, hstop⟩
    refine ⟨?_, ?_⟩
    · rw [Enters, or_and_left, or_and_left, or_and_left]
      exact ⟨hred, hpushed, hsame, hzero⟩
    rcases bind_eq_error.mp hstop with hstop | ⟨entry, _, hstop⟩
    · exact hstop
    · -- behind the entry loop nothing is stored
      exact absurd hstop (bind_ne_error (checkEach_ne_error fun _ _ => cmpHeapConflict_ne)
        fun _ _ => ok_ne_error _ _)
  · rintro ⟨henters, hstop⟩
    rw [Enters, or_and_left, or_and_left, or_and_left] at henters
    obtain ⟨hred, hpushed, hsame, hzero⟩ := henters
    exact ⟨hred, hpushed, hsame, hzero, bind_eq_error.mpr (.inl hstop)⟩

/-! ## The other three -/

theorem tryCmpHeap_not_overruns : ¬ Overruns (tryCmpHeap b a1 a2 mem) := by
  refine bind_ne_error Build.assert_ne_outOfBounds fun _ _ => ?_
  exact bind_ne_error (Checks.verdict_ne_error (tryCmpHeapChecks_ne_stop (by decide)))
    fun _ _ => ok_ne_error _ _

theorem cmpHeapNwayRoom_ne : cmpHeapNwayRoom k ≠ .error (.outOfBounds "entry") := by
  refine bind_ne_error failIfn_ne_outOfBounds fun _ hk => ?_
  rw [inBounds_of (failIfn_eq_ok.mp hk)]
  exact ok_ne_error _ _

theorem cmpHeapNwayVisit_ne :
    cmpHeapNwayVisit b buffers n mem i ≠ .error (.outOfBounds "entry") := by
  refine bind_ne_error entryAt_ne fun e0 _ => ?_
  refine bind_ne_error (checkLoop_ne_error fun phase => ?_) fun _ _ => switchConflict_assert_ne
  refine bind_ne_error entryAt_ne fun ei _ => ?_
  exact bind_ne_error failIfn_ne_outOfBounds fun _ _ => Build.assert_ne_outOfBounds

theorem cmpHeapNway_not_overruns : ¬ Overruns (cmpHeapNway b buffers n mem) := by
  refine bind_ne_error Build.assert_ne_outOfBounds fun _ _ => ?_
  refine bind_ne_error (checkLoop_ne_error fun i => ?_) fun _ _ => ?_
  · exact bind_ne_error Build.assert_ne_outOfBounds fun _ _ => Build.assert_ne_outOfBounds
  refine bind_ne_error Build.assert_ne_outOfBounds fun _ _ => ?_
  refine bind_ne_error (collect_ne_error (fun _ => cmpHeapNwayVisit_ne) fun _ => cmpHeapNwayRoom_ne)
    fun entry _ => ?_
  exact bind_ne_error (checkEach_ne_error fun _ _ => failIfn_ne_outOfBounds) fun _ _ =>
    ok_ne_error _ _

theorem tryCmpHeapNway_not_overruns : ¬ Overruns (tryCmpHeapNway b buffers n mem) := by
  refine bind_ne_error Build.assert_ne_outOfBounds fun _ _ => ?_
  refine bind_ne_error (require_ne_error (by decide)) fun _ _ => ?_
  exact bind_ne_error (Checks.verdict_ne_error (tryCmpHeapNwayChecks_ne_stop (by decide)))
    fun _ _ => ok_ne_error _ _

/-! ## All four -/

/-- Every store of the four comparisons is inside the array of conflicts exactly when
`abuf_cmp_heap` does not get to its entry loop, or finds at most `ABUF_MAX_CONFLICTS` conflicts
among the entries before the first one that stops it. -/
theorem entryStores_inside_iff (b : Build) (a1 a2 : Abuf) (buffers : Nat → Abuf) (n : Nat)
    (mem : Mem) :
    (¬ Overruns (cmpHeap b a1 a2 mem) ∧ ¬ Overruns (tryCmpHeap b a1 a2 mem) ∧
      ¬ Overruns (cmpHeapNway b buffers n mem) ∧ ¬ Overruns (tryCmpHeapNway b buffers n mem)) ↔
      (Enters b a1 a2 → (passedConflicts b a1 a2 mem).length ≤ abufMaxConflicts) := by
  rw [and_iff_left ⟨tryCmpHeap_not_overruns, cmpHeapNway_not_overruns, tryCmpHeapNway_not_overruns⟩,
    cmpHeap_overruns_iff, not_and, not_lt]

/-- Rewound logs of the same locations pass all checks, and the conflicts are the writes that memory
does not show. -/
theorem Holds.length_passedConflicts {ws ws' : List Write} (h : a1.Holds ws) (h' : a2.Shaped ws')
    (hshape : shapes ws' = shapes ws) (hsized : Sized ws) (h1 : a1.poped = 0) (h2 : a2.poped = 0) :
    (passedConflicts b a1 a2 mem).length = mismatches mem ws := by
  have hall : passed b a1 a2 = List.range' 0 a1.pushed := by
    rw [passed, h1, Nat.sub_zero, List.takeWhile_eq_self_iff]
    intro i hi
    have hi : i < a1.pushed := by simpa using hi
    rw [decide_eq_true_eq, passes_iff h1 h2]
    exact ⟨h.shaped.entryMatches h' hshape hi, .inr (h.shaped.known hsized i hi)⟩
  rw [passedConflicts, hall]
  exact h.length_conflicts hsized

/-! ## Logs at the limit -/

/-- The log of writes to the byte at 0. -/
def bytesAtZero (vs : List Nat) : Abuf :=
  vs.foldl (fun a v => a.push .uint8 0 v) (Abuf.init 1 (by decide))

theorem bytesAtZero_append (vs : List Nat) (v : Nat) :
    bytesAtZero (vs ++ [v]) = (bytesAtZero vs).push .uint8 0 v := by
  rw [bytesAtZero, List.foldl_append]
  rfl

theorem holds_bytesAtZero (vs : List Nat) :
    (bytesAtZero vs).Holds (vs.map (Write.ofNat 0 1)) ∧ (bytesAtZero vs).poped = 0 := by
  induction vs using List.reverseRecOn with
  | nil => exact ⟨⟨rfl, fun i hi => absurd hi (Nat.not_lt_zero i)⟩, rfl⟩
  | append_singleton vs v ih =>
    rw [bytesAtZero_append, List.map_append]
    exact ⟨ih.1.push rfl rfl rfl, ih.2⟩

/-- With 0 in memory, `k` writes of 1 before one of 0 are `k` conflicts. -/
theorem length_passedConflicts_bytesAtZero (b : Build) (k : Nat) :
    (passedConflicts b (bytesAtZero (List.replicate k 1 ++ [0]))
      (bytesAtZero (List.replicate k 1 ++ [0])) fun _ => 0).length = k := by
  obtain ⟨hholds, hpoped⟩ := holds_bytesAtZero (List.replicate k 1 ++ [0])
  have hsized : Sized ((List.replicate k 1 ++ [0]).map (Write.ofNat 0 1)) := by
    rw [Sized, List.forall_mem_map]
    exact fun _ _ => rfl
  rw [hholds.length_passedConflicts hholds.shaped rfl hsized hpoped hpoped, mismatches,
    List.map_append, List.map_replicate, List.countP_append, List.countP_replicate,
    if_pos (by decide), List.map_singleton, List.countP_singleton, if_neg (by decide), Nat.add_zero]

/-- With as many conflicts as the array has room for all stores are inside. -/
theorem entryStores_inside_full :
    ¬ Overruns (cmpHeap (Build.twoWay false false) (bytesAtZero (List.replicate 8000 1 ++ [0]))
      (bytesAtZero (List.replicate 8000 1 ++ [0])) fun _ => 0) :=
  ((entryStores_inside_iff (Build.twoWay false false) (bytesAtZero (List.replicate 8000 1 ++ [0]))
    (bytesAtZero (List.replicate 8000 1 ++ [0])) (fun _ => bytesAtZero []) 2 fun _ => 0).mpr
    fun _ => le_of_eq (length_passedConflicts_bytesAtZero _ 8000)).1

/-- Two phases write 1 to a byte 8001 times, and then 0. The 8001st conflict is stored behind the
array, in builds with assertions and without. -/
theorem entryStores_overrun :
    Overruns (cmpHeap (Build.twoWay false false) (bytesAtZero (List.replicate 8001 1 ++ [0]))
      (bytesAtZero (List.replicate 8001 1 ++ [0])) fun _ => 0) ∧
    Overruns (cmpHeap (Build.twoWay true false) (bytesAtZero (List.replicate 8001 1 ++ [0]))
      (bytesAtZero (List.replicate 8001 1 ++ [0])) fun _ => 0) := by
  have hpoped := (holds_bytesAtZero (List.replicate 8001 1 ++ [0])).2
  constructor
  · refine cmpHeap_overruns_iff.mpr ⟨.inr ⟨rfl, rfl, rfl, hpoped⟩, ?_⟩
    rw [length_passedConflicts_bytesAtZero]
    decide
  · refine cmpHeap_overruns_iff.mpr ⟨.inl rfl, ?_⟩
    rw [length_passedConflicts_bytesAtZero]
    decide

end Abuf

end LibSei
