-- SUMMARY: The allocations of a transaction: the blocks phase 0 is given, their replay in the later phases and their release by a rollback.
import LibSei.ModeCow.PutAside

/-!
# The allocations of a transaction

The allocator is asked in phase 0 only; what it returns is recorded and handed out again in
the later phases. Wherever a transaction is interrupted, the record holds the blocks of the
requests phase 0 has made, and these are what a rollback frees.
-/

namespace LibSei

open Memory Control

/-- The blocks the allocator returns to requests of these sizes, when the first of them is its
`k`-th call. -/
def Env.blocks (env : Env) : Nat → List Nat → List TallocAllocation
  | _, [] => []
  | k, size :: sizes => ⟨env.malloc k size, size⟩ :: env.blocks (k + 1) sizes

@[simp] theorem Env.length_blocks (env : Env) (k : Nat) (sizes : List Nat) :
    (env.blocks k sizes).length = sizes.length := by
  induction sizes generalizing k with
  | nil => rfl
  | cons size sizes ih => rw [Env.blocks, List.length_cons, ih, List.length_cons]

theorem Env.blocks_append_singleton (env : Env) (k : Nat) (sizes : List Nat) (size : Nat) :
    env.blocks k (sizes ++ [size]) =
      env.blocks k sizes ++ [⟨env.malloc (k + sizes.length) size, size⟩] := by
  induction sizes generalizing k with
  | nil => rfl
  | cons x xs ih =>
    rw [List.cons_append, Env.blocks, ih, Env.blocks, List.cons_append, List.length_cons,
      Nat.add_right_comm, Nat.add_assoc]

/-- The pointer an effect frees, if it does. -/
def Effect.freed? : Effect → Option Nat
  | .freed ptr => some ptr
  | .called _ _ => none

/-- The sizes a phase asks for. -/
def requests (cs : List Call) : List Nat := cs.filterMap Call.malloced?

theorem requests_append (cs ds : List Call) : requests (cs ++ ds) = requests cs ++ requests ds :=
  List.filterMap_append

theorem requests_mallocs (sizes : List Nat) : requests (sizes.map .malloc) = sizes := by
  simp [requests, List.filterMap_map, Function.comp_def, Call.malloced?]

namespace World

/-- The pointers freed between `w` and `w'`. -/
def released (w w' : World) : List Nat :=
  (w'.machine.trace.drop w.machine.trace.length).filterMap Effect.freed?

/-- The operations `css` of the phases were served: the blocks of phase 0 are recorded, every
phase below `n` has been handed as many as it asked for, and nothing was freed. -/
structure Allocates (env : Env) (n : Nat) (w0 : World) (css : Nat → List Call) (w : World) : Prop where
  nalloc : w.machine.nalloc = w0.machine.nalloc + (requests (css 0)).length
  trace : w.machine.trace = w0.machine.trace
  size : ∀ p < n, w.sei.talloc.size p = (requests (css p)).length
  allocations : ∀ i a, (env.blocks w0.machine.nalloc (requests (css 0)))[i]? = some a →
    w.sei.talloc.allocations i = a

section Allocates

variable {env : Env} {b : Build} {w w' w0 : World} {n k : Nat} {c : Call} {cs : List Call}
  {css phases : Nat → List Call}

theorem Allocates.same (h : Allocates env n w0 css w) (hc : c.malloced? = none)
    (hframe : CallFrame c w w') : Allocates env n w0 (Function.update css k (css k ++ [c])) w' := by
  have hsame : ∀ p, requests (Function.update css k (css k ++ [c]) p) = requests (css p) := by
    intro p
    by_cases hp : p = k
    · subst hp
      simp [requests, hc]
    · simp [hp]
  refine ⟨?_, hframe.trace.trans h.trace, fun p hp => ?_, fun i a hi => ?_⟩
  · rw [hframe.nalloc hc, hsame, h.nalloc]
  · rw [hframe.talloc hc, hsame, h.size p hp]
  · rw [hsame] at hi
    rw [hframe.talloc hc, h.allocations i a hi]

theorem Allocates.call (h : Allocates env n w0 css w) (hk : k < n) (htalloc : w.sei.talloc.p = k)
    (hrun : w.call env b c = .ok w') :
    Allocates env n w0 (Function.update css k (css k ++ [c])) w' := by
  cases hc : c.malloced? with
  | none => exact h.same hc (call_frame hrun)
  | some size =>
    obtain rfl : c = .malloc size := by
      cases c with
      | malloc size' =>
        cases hc
        rfl
      | _ => cases hc
    have hself : requests (Function.update css k (css k ++ [.malloc size]) k) =
        requests (css k) ++ [size] := by
      simp [requests, hc]
    have hother : ∀ p, p ≠ k →
        requests (Function.update css k (css k ++ [.malloc size]) p) = requests (css p) :=
      fun p hp => by rw [Function.update_of_ne hp]
    have hcount : ∀ p < n, Function.update w.sei.talloc.size k (w.sei.talloc.size k + 1) p =
        (requests (Function.update css k (css k ++ [.malloc size]) p)).length := by
      intro p hp
      by_cases hpk : p = k
      · subst hpk
        rw [Function.update_self, hself, h.size p hp, List.length_append, List.length_singleton]
      · rw [Function.update_of_ne hpk, hother p hpk, h.size p hp]
    simp only [World.call, World.malloc, bind_eq_ok, pure_eq_ok, Except.ok.injEq] at hrun
    obtain ⟨_, ⟨⟨addr, t, m⟩, hmalloc, rfl⟩, rfl⟩ := hrun
    rcases Talloc.malloc_eq_ok hmalloc with ⟨hp, rfl, rfl, rfl⟩ | ⟨hp, rfl, rfl, rfl⟩
    · obtain rfl : k = 0 := htalloc.symm.trans hp
      refine ⟨?_, h.trace, hcount, fun i a hi => ?_⟩
      · show w.machine.nalloc + 1 = _
        rw [hself, h.nalloc, List.length_append, List.length_singleton, Nat.add_assoc]
      · show Function.update w.sei.talloc.allocations (w.sei.talloc.size 0) _ i = a
        rw [hself, Env.blocks_append_singleton, List.getElem?_append, Env.length_blocks] at hi
        rw [h.size 0 hk]
        split at hi
        · rw [Function.update_of_ne (by omega)]
          exact h.allocations i a hi
        · rw [List.getElem?_singleton] at hi
          split at hi
          · obtain rfl : i = (requests (css 0)).length := by omega
            rw [Function.update_self, h.nalloc]
            exact Option.some.inj hi
          · cases hi
    · rw [htalloc] at hp
      refine ⟨?_, h.trace, ?_, fun i a hi => ?_⟩
      · rw [hother 0 (Ne.symm hp)]
        exact h.nalloc
      · rw [htalloc]
        exact hcount
      · rw [hother 0 (Ne.symm hp)] at hi
        exact h.allocations i a hi

theorem Startable.allocates_begin (h : w0.Startable b n) :
    Allocates env n w0 (fun _ => []) w0.beginPhase := by
  have hnone : Allocates env n w0 (fun _ => []) w0 :=
    ⟨rfl, rfl, fun p hp => h.talloc_size p hp, fun i a hi => by simp [requests, Env.blocks] at hi⟩
  unfold beginPhase
  split
  · exact { hnone with }
  · exact hnone

/-- A switch leaves the table and the process alone. -/
theorem switch_allocations (h : w.switch env b = .ok w') :
    w'.sei.talloc.allocations = w.sei.talloc.allocations ∧
      w'.machine.nalloc = w.machine.nalloc ∧ w'.machine.trace = w.machine.trace := by
  simp only [World.switch, Talloc.switch, bind_eq_ok, pure_eq_ok, Except.ok.injEq] at h
  obtain ⟨_, _, _, ⟨_, _, _, _, rfl⟩, _, _, _, _, rfl⟩ := h
  exact ⟨rfl, rfl, rfl⟩

theorem Allocates.switch (h : Allocates env n w0 css w) (hrun : w.switch env b = .ok w') :
    Allocates env n w0 css w' := by
  obtain ⟨hallocations, hnalloc, htrace⟩ := switch_allocations hrun
  refine ⟨hnalloc.trans h.nalloc, htrace.trans h.trace, fun p hp => ?_, fun i a hi => ?_⟩
  · rw [(switch_frame hrun).2.1, h.size p hp]
  · rw [hallocations, h.allocations i a hi]

/-- The operations of an interrupted transaction were served. -/
theorem Startable.allocates (h : w0.Startable b n) (hk : k < n)
    (hrun : World.inPhase env b phases w0 k cs = .ok w) :
    Allocates env n w0 (upTo phases k cs) w := by
  refine h.inPhase_induction (R := fun _ css w => Allocates env n w0 css w) h.allocates_begin
    ?_ ?_ hk hrun
  · intro k css c w w' hk _ htalloc hallocates hrun
    exact hallocates.call hk htalloc hrun
  · intro k css w w' _ _ hallocates hrun
    exact hallocates.switch hrun

theorem malloc_requests_le {css : Nat → List Call} (hallocates : Allocates env n w0 css w) (hk : k < n)
    (htalloc : w.sei.talloc.p = k) (hle : (requests (css k)).length ≤ tallocMaxAllocs)
    (hrun : w.call env b c = .ok w') : (requests (css k ++ [c])).length ≤ tallocMaxAllocs := by
  rw [requests, List.filterMap_append, List.length_append]
  cases c with
  | malloc size =>
    simp only [World.call, World.malloc, bind_eq_ok, pure_eq_ok, Except.ok.injEq] at hrun
    obtain ⟨_, ⟨_, hmalloc, _⟩, _⟩ := hrun
    have hplace := Talloc.size_lt_of_malloc hmalloc
    rw [htalloc, hallocates.size k hk] at hplace
    exact hplace
  | _ => exact hle

/-- No phase has asked for more blocks than the table has places. -/
theorem Startable.requests_le (h : w0.Startable b n) (hk : k < n)
    (hrun : World.inPhase env b phases w0 k cs = .ok w) :
    ∀ p, (requests (upTo phases k cs p)).length ≤ tallocMaxAllocs := by
  refine (h.inPhase_induction (R := fun _ css w => Allocates env n w0 css w ∧
    ∀ p, (requests (css p)).length ≤ tallocMaxAllocs) ⟨h.allocates_begin, fun p => ?_⟩ ?_ ?_ hk hrun).2
  · exact Nat.zero_le _
  · rintro k css c w w' hk _ htalloc ⟨hallocates, hle⟩ hrun
    refine ⟨hallocates.call hk htalloc hrun, fun p => ?_⟩
    by_cases hp : p = k
    · subst hp
      rw [Function.update_self]
      exact malloc_requests_le hallocates hk htalloc (hle p) hrun
    · rw [Function.update_of_ne hp]
      exact hle p
  · rintro k css w w' _ _ ⟨hallocates, hle⟩ hrun
    exact ⟨hallocates.switch hrun, hle⟩

/-- The addresses phase 0 has been given so far. -/
def given (env : Env) (w0 : World) (cs : List Call) : List Nat :=
  (env.blocks w0.machine.nalloc (requests cs)).map TallocAllocation.addr

theorem Allocates.map_addr (h : Allocates env n w0 css w) (hn : 0 < n) :
    (List.range' 0 (w.sei.talloc.size 0)).map (fun i => (w.sei.talloc.allocations i).addr) =
      given env w0 (css 0) := by
  rw [h.size 0 hn, given]
  refine List.ext_getElem (by simp) fun i hi hi' => ?_
  have hlt : i < (env.blocks w0.machine.nalloc (requests (css 0))).length := by simpa using hi'
  rw [List.getElem_map, List.getElem_map, List.getElem_range', Nat.one_mul, Nat.zero_add,
    h.allocations i _ (List.getElem?_eq_getElem hlt)]

/-! ## Serving requests -/

/-- The next requests of the current phase are served with `blocks`: by the allocator, whose
next call is its `k`-th, in phase 0, and from the record in later phases. -/
structure Serves (k : Nat) (blocks : List TallocAllocation) (w : World) : Prop where
  first : w.sei.talloc.p = 0 → w.machine.nalloc = k ∧ (∀ a ∈ blocks, a.addr ≠ 0) ∧
    w.sei.talloc.size 0 + blocks.length < tallocMaxAllocs
  later : w.sei.talloc.p ≠ 0 →
    w.sei.talloc.size w.sei.talloc.p + blocks.length ≤ tallocMaxAllocs ∧
    ∀ i a, blocks[i]? = some a → w.sei.talloc.allocations (w.sei.talloc.size w.sei.talloc.p + i) = a

theorem Serves.same {blocks : List TallocAllocation} (h : w.Serves k blocks) (hc : c.malloced? = none)
    (hframe : CallFrame c w w') : w'.Serves k blocks := by
  constructor
  · rw [hframe.talloc hc, hframe.nalloc hc]
    exact h.first
  · rw [hframe.talloc hc]
    exact h.later

theorem Serves.exists_malloc {size : Nat} {sizes : List Nat}
    (h : w.Serves k (env.blocks k (size :: sizes))) (hp : w.sei.talloc.p < b.redundancy) :
    ∃ r, w.sei.talloc.malloc env b size w.machine = .ok r := by
  have hphase : 0 ≤ w.sei.talloc.p ∧ w.sei.talloc.p < b.redundancy := ⟨Nat.zero_le _, hp⟩
  rw [Talloc.malloc, Build.assert_of hphase, ok_bind]
  split
  · next hzero =>
    obtain ⟨rfl, hnonnull, hroom⟩ := h.first hzero
    rw [Env.length_blocks, List.length_cons] at hroom
    have hcount : w.sei.talloc.size 0 + 1 < tallocMaxAllocs := by omega
    have hslot : w.sei.talloc.size 0 < tallocMaxAllocs := by omega
    have haddr : (Machine.malloc env size w.machine).1 ≠ 0 := hnonnull _ List.mem_cons_self
    rw [Build.assert_of hcount, ok_bind, inBounds_of hslot, ok_bind]
    simp only [Build.assert_of haddr, ok_bind]
    exact ⟨_, rfl⟩
  · next hzero =>
    obtain ⟨hroom, _⟩ := h.later hzero
    rw [Env.length_blocks, List.length_cons] at hroom
    have hphase' : w.sei.talloc.p > 0 ∧ w.sei.talloc.p < b.redundancy := ⟨by omega, hp⟩
    have hslot : w.sei.talloc.size w.sei.talloc.p < tallocMaxAllocs := by omega
    rw [Build.assert_of hphase', ok_bind, inBounds_of hp, ok_bind, inBounds_of hslot, ok_bind]
    exact ⟨_, rfl⟩

/-- A request that is served. -/
theorem Serves.malloc {size : Nat} {sizes : List Nat}
    (h : w.Serves k (env.blocks k (size :: sizes))) (hp : w.sei.talloc.p < b.redundancy) :
    ∃ w', w.malloc env b size = .ok (env.malloc k size, w') ∧ w'.mem = w.mem ∧
      w'.Serves (k + 1) (env.blocks (k + 1) sizes) := by
  obtain ⟨⟨addr, t, m⟩, hrun⟩ := h.exists_malloc hp
  have hmalloc : w.malloc env b size = .ok (addr, ⟨{ w.sei with talloc := t }, m⟩) := by
    rw [World.malloc, hrun, ok_bind]
    rfl
  rcases Talloc.malloc_eq_ok hrun with ⟨hzero, rfl, rfl, rfl⟩ | ⟨hzero, rfl, rfl, rfl⟩
  · obtain ⟨rfl, hnonnull, hroom⟩ := h.first hzero
    refine ⟨_, hmalloc, rfl, fun _ => ⟨rfl, fun a ha => ?_, ?_⟩, fun hne => absurd hzero hne⟩
    · exact hnonnull a (List.mem_cons_of_mem _ ha)
    · show Function.update w.sei.talloc.size 0 (w.sei.talloc.size 0 + 1) 0 + _ < _
      rw [Env.length_blocks, List.length_cons] at hroom
      rw [Function.update_self, Env.length_blocks]
      omega
  · obtain ⟨hroom, hrecord⟩ := h.later hzero
    have hnext : w.sei.talloc.allocations (w.sei.talloc.size w.sei.talloc.p) =
        ⟨env.malloc k size, size⟩ := hrecord 0 _ rfl
    rw [hnext] at hmalloc
    refine ⟨_, hmalloc, rfl, fun h => absurd h hzero, fun _ => ?_⟩
    show Function.update w.sei.talloc.size w.sei.talloc.p _ w.sei.talloc.p + _ ≤ _ ∧
      ∀ i a, _ → w.sei.talloc.allocations (Function.update w.sei.talloc.size w.sei.talloc.p _
        w.sei.talloc.p + i) = a
    rw [Env.length_blocks, List.length_cons] at hroom
    rw [Function.update_self, Env.length_blocks]
    refine ⟨by omega, fun i a hi => ?_⟩
    rw [Nat.add_assoc, Nat.add_comm 1 i]
    exact hrecord (i + 1) a hi

/-! ## Released blocks -/

theorem released_of_trace {ptrs : List Nat}
    (h : w'.machine.trace = w.machine.trace ++ ptrs.map .freed) : released w w' = ptrs := by
  rw [released, h, List.drop_left, List.filterMap_map]
  exact List.filterMap_some

end Allocates

end World

end LibSei
