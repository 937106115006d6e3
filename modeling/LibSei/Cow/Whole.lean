-- SUMMARY: What `cow_apply`, `cow_swap` and `cow_apply_cmp` do to whole copy-on-write buffers and memory.
import LibSei.Cow.View

/-!
# Whole buffers

`cow_apply` makes memory what is seen through the buffer. `cow_swap` exchanges the two: memory
becomes what was seen, and what is seen becomes what memory was. `cow_apply_cmp` goes through
exactly if the buffers match bucket by bucket, and then both are empty.
-/

namespace LibSei

open Memory Control

namespace Cow

variable {mode : CowMode} {c c1 c2 : Cow} {m : Mem} {b i k n : Nat}

/-- The first `n` buckets are changed by `g`. -/
def changed (g : List CowEntry → List CowEntry) (c : Cow) (n : Nat) : Cow :=
  { c with table := fun i => if i < n then g (c.table i) else c.table i }

section Changed

variable {g : List CowEntry → List CowEntry}

theorem changed_of_le (h : n ≤ i) : (c.changed g n).table i = c.table i := if_neg (by omega)

theorem changed_of_lt (h : i < n) : (c.changed g n).table i = g (c.table i) := if_pos h

theorem changed_succ (g : List CowEntry → List CowEntry) (c : Cow) (n : Nat) : c.changed g (n + 1) =
    { c.changed g n with table := Function.update (c.changed g n).table n (g (c.table n)) } := by
  have htable : (c.changed g (n + 1)).table =
      Function.update (c.changed g n).table n (g (c.table n)) := by
    funext i
    by_cases hi : i = n
    · rw [hi, Function.update_self, changed_of_lt (by omega)]
    · rw [Function.update_of_ne hi]
      by_cases hlt : i < n
      · rw [changed_of_lt hlt, changed_of_lt (by omega)]
      · rw [changed_of_le (by omega), changed_of_le (by omega)]
  rw [← htable]
  rfl

end Changed

/-- The first `n` buckets are empty. -/
def cleared (c : Cow) (n : Nat) : Cow := c.changed (fun _ => []) n

theorem clearBucket_cleared (c : Cow) (n : Nat) : (c.cleared n).clearBucket n = c.cleared (n + 1) :=
  (changed_succ (fun _ => []) c n).symm

theorem table_cleared (h : n ≤ i) : (c.cleared n).table i = c.table i := changed_of_le h

theorem empty_cleared (c : Cow) : (c.cleared cowMax).Empty := fun _ hi => changed_of_lt hi

/-- The entries of a bucket written to memory. -/
def storeBucket (l : List CowEntry) (m : Mem) : Mem := l.foldl (fun m e => store m e.waddr 8 e.wval) m

/-- The entries of the first `n` buckets written to memory. -/
def settle (c : Cow) (n : Nat) (m : Mem) : Mem := n.fold (fun i _ m => storeBucket (c.table i) m) m

theorem settle_succ (c : Cow) (n : Nat) (m : Mem) :
    c.settle (n + 1) m = storeBucket (c.table n) (c.settle n m) := by
  rw [settle, Nat.fold_succ]
  rfl

theorem storeBucket_eq {l : List CowEntry} (hl : (l.map CowEntry.wkey).Nodup) (m : Mem) :
    storeBucket l m = overlay (valueOf CowEntry.wkey CowEntry.wvalue l) m := by
  simp only [storeBucket, CowEntry.store_wval]
  exact foldl_putWord hl

/-- The entries of a bucket are seen where the keys hash to it. -/
theorem valueOf_bucket (hc : Hashed c.keys) (hi : i < cowMax) (k : Nat) :
    valueOf CowEntry.wkey CowEntry.wvalue (c.table i) k = if hash k = i then c.look k else none := by
  by_cases hk : hash k = i
  · rw [if_pos hk, look, hk]
  · rw [if_neg hk, valueOf_eq_none]
    exact fun hmem => hk (hc.hash i hi k hmem)

/-- Memory when the first `n` buckets are written. -/
theorem settle_apply (hc : Hashed c.keys) (hn : n ≤ cowMax) (m : Mem) (b : Nat) :
    c.settle n m b = if hash (b / 8) < n then c.view m b else m b := by
  induction n with
  | zero => rfl
  | succ n ih =>
    have ih := ih (by omega)
    have hbucket := valueOf_bucket hc (i := n) (by omega) (b / 8)
    rw [settle_succ, storeBucket_eq (hc.nodup n (by omega))]
    by_cases hb : hash (b / 8) = n
    · rw [if_neg (by omega)] at ih
      rw [if_pos hb] at hbucket
      rw [if_pos (by omega), view, overlay, overlay, hbucket, ih]
    · rw [if_neg hb] at hbucket
      rw [overlay_of_none hbucket, ih]
      by_cases hlt : hash (b / 8) < n
      · rw [if_pos hlt, if_pos (by omega)]
      · rw [if_neg hlt, if_neg (by omega)]

theorem settle_all (hc : Hashed c.keys) (m : Mem) : c.settle cowMax m = c.view m := by
  funext b
  rw [settle_apply hc (le_refl _), if_pos (hash_lt _)]

/-! ## `cow_apply` -/

theorem apply_eq (c : Cow) (m : Mem) : c.apply m = (c.cleared cowMax, c.settle cowMax m) := by
  have hfold : ∀ n, n.fold (fun i _ s => applyBucket i s) (c, m) = (c.cleared n, c.settle n m) := by
    intro n
    induction n with
    | zero => rfl
    | succ n ih =>
      have hbucket : (c.cleared n).table n = c.table n := table_cleared (le_refl n)
      rw [Nat.fold_succ, ih, applyBucket, clearBucket_cleared, hbucket, settle_succ]
      rfl
  exact hfold cowMax

/-- `cow_apply` makes memory what is seen and empties the buffer. -/
theorem apply_spec (hc : Hashed c.keys) (m : Mem) : (c.apply m).1.Empty ∧ (c.apply m).2 = c.view m := by
  rw [apply_eq]
  exact ⟨c.empty_cleared, settle_all hc m⟩

/-! ## `cow_swap` -/

/-- The entry that holds what memory holds at its key. -/
def refresh (m : Mem) (e : CowEntry) : CowEntry := e.setWval (load m e.waddr 8)

theorem wvalue_refresh (m : Mem) (e : CowEntry) : (refresh m e).wvalue = wordAt m e.wkey := by
  rw [refresh, CowEntry.waddr_eq, CowEntry.wvalue_setWval_load]

theorem map_wkey_refresh (m : Mem) (l : List CowEntry) :
    (l.map (refresh m)).map CowEntry.wkey = l.map CowEntry.wkey := by
  rw [List.map_map]
  rfl

/-- Entries are refreshed alike by memories that agree on their words. -/
theorem map_refresh_congr {m' : Mem} {l : List CowEntry}
    (h : ∀ b, b / 8 ∈ l.map CowEntry.wkey → m b = m' b) : l.map (refresh m) = l.map (refresh m') := by
  refine List.map_congr_left fun e he => ?_
  have hload : load m e.waddr 8 = load m' e.waddr 8 := by
    refine load_eq_iff.mpr fun b hb => h b ?_
    rw [CowEntry.waddr_eq] at hb
    rw [show b / 8 = e.wkey by omega]
    exact List.mem_map_of_mem he
  rw [refresh, refresh, hload]

theorem swapEntries_eq {l : List CowEntry} (hl : (l.map CowEntry.wkey).Nodup) (m : Mem) :
    swapEntries l m = (l.map (refresh m), storeBucket l m) := by
  induction l generalizing m with
  | nil => rfl
  | cons e l ih =>
    rw [List.map_cons, List.nodup_cons] at hl
    have hrest : l.map (refresh (store m e.waddr 8 e.wval)) = l.map (refresh m) := by
      refine map_refresh_congr fun b hb => ?_
      have hne : b / 8 ≠ e.wkey := fun h => hl.1 (h ▸ hb)
      rw [CowEntry.store_wval, putWord, if_neg hne]
    rw [swapEntries, ih hl.2, hrest]
    rfl

/-- The buffer after `cow_swap`. -/
def swapped (c : Cow) (m : Mem) (n : Nat) : Cow := c.changed (List.map (refresh m)) n

theorem keys_swapped (c : Cow) (m : Mem) (n : Nat) : (c.swapped m n).keys = c.keys := by
  funext i
  show (if i < n then (c.table i).map (refresh m) else c.table i).map CowEntry.wkey = c.keys i
  split
  · exact map_wkey_refresh m _
  · rfl

theorem swap_eq (hc : Hashed c.keys) (m : Mem) :
    c.swap m = (c.swapped m cowMax, c.settle cowMax m) := by
  have hfold : ∀ n ≤ cowMax,
      n.fold (fun i _ s => swapBucket i s) (c, m) = (c.swapped m n, c.settle n m) := by
    intro n hn
    induction n with
    | zero => rfl
    | succ n ih =>
      have hbucket : (c.swapped m n).table n = c.table n := changed_of_le (le_refl n)
      -- the words of this bucket are not those of the buckets before it
      have hfresh : (c.table n).map (refresh (c.settle n m)) = (c.table n).map (refresh m) := by
        refine map_refresh_congr fun b hb => ?_
        have hhash := hc.hash n (by omega) _ hb
        rw [settle_apply hc (by omega), if_neg (by omega)]
      rw [Nat.fold_succ, ih (by omega), swapBucket, hbucket, swapEntries_eq (hc.nodup n (by omega)),
        hfresh, settle_succ]
      exact Prod.ext (changed_succ _ c n).symm rfl
  exact hfold cowMax (le_refl _)

theorem look_swapped (c : Cow) (m : Mem) (k : Nat) :
    (c.swapped m cowMax).look k = (c.look k).map fun _ => wordAt m k := by
  have hbucket : (c.swapped m cowMax).table (hash k) = (c.table (hash k)).map (refresh m) :=
    changed_of_lt (hash_lt k)
  rw [look, look, hbucket]
  induction c.table (hash k) with
  | nil => rfl
  | cons e l ih =>
    rw [List.map_cons, valueOf_cons, valueOf_cons, ih, wvalue_refresh]
    show (if e.wkey = k then _ else _) = _
    split
    · next hk => rw [hk]; rfl
    · rfl

/-- `cow_swap` exchanges memory and what is seen. -/
theorem swap_spec (hc : c.WellFormed) (m : Mem) :
    (c.swap m).1.WellFormed ∧ (c.swap m).1.keys = c.keys ∧ (c.swap m).2 = c.view m ∧
      (c.swap m).1.view (c.view m) = m := by
  rw [swap_eq hc.hashed, settle_all hc.hashed]
  refine ⟨hc.of_keys (c.keys_swapped m _) rfl, c.keys_swapped m _, rfl, ?_⟩
  funext b
  have hlook := c.look_swapped m (b / 8)
  cases hb : c.look (b / 8) with
  | none =>
    rw [hb] at hlook
    rw [view, overlay_of_none hlook, view, overlay_of_none hb]
  | some w =>
    rw [hb] at hlook
    rw [view, overlay_of_some hlook]
    exact wordAt_ofNat m b

/-! ## `cow_apply_cmp` -/

/-- The entries of two buckets that `cow_apply_cmp` accepts on memory `m`. -/
def Matches (mode : CowMode) (m : Mem) (l1 l2 : List CowEntry) : Prop :=
  l1.map CowEntry.wkey = l2.map CowEntry.wkey ∧
    if mode = .wt then ∀ e ∈ l1, e.wval = load m e.waddr 8
    else l1.map CowEntry.wval = l2.map CowEntry.wval

instance (mode : CowMode) (m : Mem) (l1 l2 : List CowEntry) : Decidable (Matches mode m l1 l2) :=
  inferInstanceAs (Decidable (_ ∧ _))

theorem matches_cons {e1 e2 : CowEntry} {l1 l2 : List CowEntry} :
    Matches mode m (e1 :: l1) (e2 :: l2) ↔ e1.wkey = e2.wkey ∧
      (if mode = .wt then e1.wval = load m e1.waddr 8 else e1.wval = e2.wval) ∧ Matches mode m l1 l2 := by
  cases mode
  · simp [Matches]
    tauto
  · simp [Matches]
    tauto

/-- In `COW_WB` the comparison does not look at memory. -/
theorem Matches.congr {m' : Mem} {l1 l2 : List CowEntry} (hm : mode = .wt → m' = m)
    (h : Matches mode m l1 l2) : Matches mode m' l1 l2 := by
  refine ⟨h.1, ?_⟩
  have hvalues := h.2
  split
  · next hwt => rwa [if_pos hwt, ← hm hwt] at hvalues
  · next hwb => rwa [if_neg hwb] at hvalues

/-- Memory after the entries of a bucket were compared. -/
def compared (mode : CowMode) (l : List CowEntry) (m : Mem) : Mem :=
  if mode = .wt then m else storeBucket l m

theorem cmpValue_eq_ok {e1 e2 : CowEntry} {m' : Mem} : cmpValue mode e1 e2 m = .ok m' ↔
    (if mode = .wt then e1.wval = load m e1.waddr 8 else e1.wval = e2.wval) ∧
      m' = compared mode [e1] m := by
  rw [cmpValue, compared]
  split
  · rw [seq_eq_ok, failIfn_eq_ok, pure_eq_ok, Except.ok.injEq, eq_comm (a := m)]
  · rw [seq_eq_ok, failIfn_eq_ok, pure_eq_ok, Except.ok.injEq, eq_comm (b := m')]
    rfl

theorem cmpEntries_eq_ok {l1 l2 : List CowEntry} {m' : Mem} (hlen : l1.length = l2.length) :
    cmpEntries mode l1 l2 m = .ok m' ↔ Matches mode m l1 l2 ∧ m' = compared mode l1 m := by
  induction l1 generalizing l2 m with
  | nil =>
    obtain rfl := List.length_eq_zero_iff.mp hlen.symm
    cases mode <;> simp [cmpEntries, Matches, compared, storeBucket, eq_comm]
  | cons e1 l1 ih =>
    obtain ⟨e2, l2, rfl⟩ := List.exists_cons_of_length_eq_add_one hlen.symm
    have hlen' : l1.length = l2.length := by simpa using hlen
    have hmem : mode = .wt → compared mode [e1] m = m := fun h => if_pos h
    have hrest : compared mode l1 (compared mode [e1] m) = compared mode (e1 :: l1) m := by
      cases mode <;> rfl
    rw [cmpEntries, seq_eq_ok, failIfn_eq_ok, bind_eq_ok, matches_cons]
    constructor
    · rintro ⟨hkey, m1, hvalue, h⟩
      obtain ⟨hval, rfl⟩ := cmpValue_eq_ok.mp hvalue
      obtain ⟨hl, rfl⟩ := (ih hlen').mp h
      exact ⟨⟨hkey, hval, hl.congr fun h => (hmem h).symm⟩, hrest⟩
    · rintro ⟨⟨hkey, hvalue, hl⟩, rfl⟩
      exact ⟨hkey, _, cmpValue_eq_ok.mpr ⟨hvalue, rfl⟩,
        (ih hlen').mpr ⟨hl.congr hmem, hrest.symm⟩⟩

theorem cmpBucket_eq_ok {s s' : Cow × Cow × Mem} : cmpBucket mode i s = .ok s' ↔
    Matches mode s.2.2 (s.1.table i) (s.2.1.table i) ∧
      s' = (s.1.clearBucket i, s.2.1.clearBucket i, compared mode (s.1.table i) s.2.2) := by
  rw [cmpBucket, seq_eq_ok, failIfn_eq_ok]
  constructor
  · rintro ⟨hlen, h⟩
    obtain ⟨m', hcmp, h⟩ := bind_eq_ok.mp h
    obtain ⟨hmatch, rfl⟩ := (cmpEntries_eq_ok hlen).mp hcmp
    cases h
    exact ⟨hmatch, rfl⟩
  · rintro ⟨hmatch, rfl⟩
    have hlen : (s.1.table i).length = (s.2.1.table i).length := by
      simpa using congrArg List.length hmatch.1
    refine ⟨hlen, bind_eq_ok.mpr ⟨_, (cmpEntries_eq_ok hlen).mpr ⟨hmatch, rfl⟩, rfl⟩⟩

/-- Memory after the first `n` buckets were compared. -/
def comparedMem (mode : CowMode) (c : Cow) (n : Nat) (m : Mem) : Mem :=
  if mode = .wt then m else c.settle n m

theorem comparedMem_succ (mode : CowMode) (c : Cow) (n : Nat) (m : Mem) :
    comparedMem mode c (n + 1) m = compared mode (c.table n) (comparedMem mode c n m) := by
  cases mode
  · rfl
  · exact settle_succ c n m

/-- `cow_apply_cmp` goes through exactly if all buckets match. Then both buffers are empty, and in
`COW_WB` the entries are in memory. -/
theorem applyCmp_eq_ok {s' : Cow × Cow × Mem} : applyCmp mode c1 c2 m = .ok s' ↔
    (∀ i < cowMax, Matches mode m (c1.table i) (c2.table i)) ∧
      s' = (c1.cleared cowMax, c2.cleared cowMax, comparedMem mode c1 cowMax m) := by
  have hmem : ∀ n, mode = .wt → comparedMem mode c1 n m = m := fun n h => if_pos h
  have hmem0 : comparedMem mode c1 0 m = m := by cases mode <;> rfl
  have hnext : ∀ j s, cmpBucket mode j (c1.cleared j, c2.cleared j, comparedMem mode c1 j m) = .ok s ↔
      Matches mode m (c1.table j) (c2.table j) ∧
        s = (c1.cleared (j + 1), c2.cleared (j + 1), comparedMem mode c1 (j + 1) m) := by
    intro j s
    rw [cmpBucket_eq_ok, clearBucket_cleared, clearBucket_cleared, table_cleared (le_refl j),
      table_cleared (le_refl j), ← comparedMem_succ]
    exact and_congr_left fun _ => ⟨.congr fun h => (hmem j h).symm, .congr (hmem j)⟩
  constructor
  · intro h
    have hend := forLoop_invariant (P := fun j s => (∀ i < j, Matches mode m (c1.table i) (c2.table i)) ∧
      s = (c1.cleared j, c2.cleared j, comparedMem mode c1 j m)) ?_ ⟨by simp, by rw [hmem0]; rfl⟩ h
    · simpa only [Nat.zero_add] using hend
    · rintro j s s' - ⟨hbefore, rfl⟩ hs
      obtain ⟨hj, hs⟩ := (hnext j s').mp hs
      refine ⟨fun i hi => ?_, hs⟩
      rcases Nat.lt_succ_iff_lt_or_eq.mp hi with hi | rfl
      · exact hbefore i hi
      · exact hj
  · rintro ⟨hall, rfl⟩
    have hloop : ∃ s, forLoop (cmpBucket mode) cowMax 0 (c1, c2, m) = .ok s ∧
        s = (c1.cleared (0 + cowMax), c2.cleared (0 + cowMax), comparedMem mode c1 (0 + cowMax) m) := by
      refine forLoop_total
        (P := fun j s => s = (c1.cleared j, c2.cleared j, comparedMem mode c1 j m))
        (fun j s _ hj hs => ?_) (by rw [hmem0]; rfl)
      rw [hs]
      exact ⟨_, (hnext j _).mpr ⟨hall j (by omega), rfl⟩, rfl⟩
    obtain ⟨s, hs, rfl⟩ := hloop
    rw [Nat.zero_add] at hs
    exact hs

theorem cmpValue_error {e1 e2 : CowEntry} {e : Stop} (h : cmpValue mode e1 e2 m = .error e) :
    e.IsFail := by
  rw [cmpValue] at h
  split at h <;>
  · rcases seq_eq_error.mp h with h | ⟨-, h⟩
    · rw [(failIfn_eq_error.mp h).2]
      trivial
    · cases h

theorem cmpEntries_error {l1 l2 : List CowEntry} {e : Stop} (h : cmpEntries mode l1 l2 m = .error e) :
    e.IsFail := by
  induction l1 generalizing l2 m with
  | nil => simp [cmpEntries] at h
  | cons e1 l1 ih =>
    cases l2 with
    | nil => simp [cmpEntries] at h
    | cons e2 l2 =>
      rw [cmpEntries] at h
      rcases seq_eq_error.mp h with h | ⟨-, h⟩
      · rw [(failIfn_eq_error.mp h).2]
        trivial
      · rcases bind_eq_error.mp h with h | ⟨m', -, h⟩
        · exact cmpValue_error h
        · exact ih h

/-- `cow_apply_cmp` that does not go through fails the transaction. -/
theorem applyCmp_error {e : Stop} (h : applyCmp mode c1 c2 m = .error e) : e.IsFail := by
  obtain ⟨k, -, s, -, h⟩ := forLoop_eq_error.mp h
  rw [cmpBucket] at h
  rcases seq_eq_error.mp h with h | ⟨-, h⟩
  · rw [(failIfn_eq_error.mp h).2]
    trivial
  · rcases bind_eq_error.mp h with h | ⟨m', -, h⟩
    · exact cmpEntries_error h
    · cases h

end Cow

end LibSei
