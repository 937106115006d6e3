-- SUMMARY: Shifting between contexts: the stash of output buffers and the stash of barriers act as one table of contexts.
import LibSei.Traversal.Messages
import LibSei.Traversal.Stash
import LibSei.Traversal.Tbar

/-!
# Contexts

A thread that serves several connections keeps a context for each of them. `__sei_shift` makes a
new context or goes back to one by its handle. Two modules keep their part of a context in a stash
of their own: `sei_shift` the output buffer, `__sei_shift` the barrier. That the two stashes give
out the same handles is assumed by the code and checked nowhere. The result here is that whole runs
act on one table whose entries hold both parts.
-/

namespace LibSei

open Control

/-! ## sei_shift and __sei_shift -/

/-- What `__sei_shift` works on. Of a barrier of the thread only the items belong to a context. -/
structure Shifting where
  obufs : Shelf Obuf
  tbars : Shelf (Nat → TbarItem)

namespace Shifting

/-- A thread after `sei_init` and `tbar_init`. -/
def init (b : Build) : Shifting :=
  ⟨Shelf.init (Obuf.init b), Shelf.init fun _ => ⟨0, 0⟩⟩

/-- `sei_shift`. -/
def seiShift (b : Build) (handle : Int) (s : Shelf Obuf) : Exec (Int × Shelf Obuf) :=
  s.shift b (fun _ => Obuf.init b) handle

/-- `tbar_idup`: the items are copied. -/
def idup (items : Nat → TbarItem) : Nat → TbarItem := items

/-- `__sei_shift` with `SEI_TBAR`. The handle that `sei_shift` returns is dropped. -/
def shift (b : Build) (handle : Int) (s : Shifting) : Exec (Int × Shifting) := do
  let (_, obufs) ← seiShift b handle s.obufs
  let (handle', tbars) ← s.tbars.shift b idup handle
  b.assert (handle = -1 ∨ tbars.current ≠ 0) "__sei_thread->tbar"
  return (handle', ⟨obufs, tbars⟩)

end Shifting

/-- What a thread does: it shifts, works on the output buffer in use, or on the barrier in use. -/
inductive ContextCall where
  | shift (handle : Int)
  | output (f : Obuf → Obuf)
  | barrier (f : (Nat → TbarItem) → Nat → TbarItem)

/-- One call, with the handle that a shift returns. -/
def Shifting.call (b : Build) : ContextCall → Shifting → Exec (Option Int × Shifting)
  | .shift handle, s => do
      let (h, s) ← s.shift b handle
      return (some h, s)
  | .output f, s => .ok (none, { s with obufs := s.obufs.modify f })
  | .barrier f, s => .ok (none, { s with tbars := s.tbars.modify f })

/-! ## One table -/

/-- A context: its output buffer and its barrier. -/
structure Context where
  output : Obuf
  barrier : Nat → TbarItem

/-- The contexts of a thread. Until the first handle is asked for, the only context has none. -/
structure ContextTable where
  contexts : List Context
  current : Nat
  named : Bool
  current_lt : current < contexts.length

namespace ContextTable

def init (b : Build) : ContextTable :=
  ⟨[⟨Obuf.init b, fun _ => ⟨0, 0⟩⟩], 0, false, Nat.zero_lt_one⟩

/-- Work on the context in use. -/
def modify (f : Context → Context) (t : ContextTable) : ContextTable :=
  { t with
    contexts := t.contexts.modify t.current f
    current_lt := by rw [List.length_modify]; exact t.current_lt }

/-- A context is added, with a new output buffer and the barrier of the context in use. -/
def add (b : Build) (t : ContextTable) : ContextTable where
  contexts := t.contexts ++ [⟨Obuf.init b, (t.contexts.get ⟨t.current, t.current_lt⟩).barrier⟩]
  current := t.contexts.length
  named := true
  current_lt := by rw [List.length_append]; exact Nat.lt_succ_self _

/-- One call; an error if a handle has not been given out. -/
def call (b : Build) : ContextCall → ContextTable → Except Unit (Option Int × ContextTable)
  | .shift handle, t =>
      if handle = -1 then
        if t.named then .ok (some t.contexts.length, t.add b)
        else .ok (some 0, { t with named := true })
      else if h : handle.toNat < t.contexts.length then
        if t.named ∧ 0 ≤ handle then
          .ok (some handle, { t with current := handle.toNat, current_lt := h })
        else .error ()
      else .error ()
  | .output f, t => .ok (none, t.modify fun c => { c with output := f c.output })
  | .barrier f, t => .ok (none, t.modify fun c => { c with barrier := f c.barrier })

end ContextTable

/-- The two stashes hold the parts of the contexts of the table. -/
structure Shifting.Shows (s : Shifting) (t : ContextTable) : Prop where
  obufs : s.obufs.Holds (t.contexts.map Context.output) t.current t.named
  tbars : s.tbars.Holds (t.contexts.map Context.barrier) t.current t.named

section Refinement

variable {b : Build} {s s' : Shifting} {t t' : ContextTable} {c : ContextCall} {r : Option Int}

theorem Shifting.shows_init (b : Build) : (Shifting.init b).Shows (ContextTable.init b) :=
  ⟨Shelf.holds_init _, Shelf.holds_init _⟩

/-- Work on one part of the context in use. -/
theorem map_modify {α β : Type} {f : α → β} {g : α → α} {g' : β → β} (h : ∀ x, f (g x) = g' (f x))
    (l : List α) (i : Nat) : (l.modify i g).map f = (l.map f).modify i g' := by
  refine List.ext_getElem (by simp) fun j _ _ => ?_
  rw [List.getElem_map, List.getElem_modify, List.getElem_modify, List.getElem_map]
  split
  · exact h _
  · rfl

/-- What is done on one part leaves the other part alone. -/
theorem map_modify_of_eq {α β : Type} {f : α → β} {g : α → α} (h : ∀ x, f (g x) = f x)
    (l : List α) (i : Nat) : (l.modify i g).map f = l.map f := by
  rw [map_modify (show ∀ x, f (g x) = id (f x) from h), List.modify_id]

theorem Shifting.Shows.output (h : s.Shows t) (f : Obuf → Obuf) :
    Shifting.Shows { s with obufs := s.obufs.modify f }
      (t.modify fun c => { c with output := f c.output }) where
  obufs := by
    show Shelf.Holds _ (List.map _ (List.modify _ _ _)) _ _
    rw [map_modify fun c : Context => show _ = f c.output from rfl]
    exact h.obufs.modify f
  tbars := by
    show Shelf.Holds _ (List.map _ (List.modify _ _ _)) _ _
    rw [map_modify_of_eq (g := fun c : Context => { c with output := f c.output }) fun _ => rfl]
    exact h.tbars

theorem Shifting.Shows.barrier (h : s.Shows t) (f : (Nat → TbarItem) → Nat → TbarItem) :
    Shifting.Shows { s with tbars := s.tbars.modify f }
      (t.modify fun c => { c with barrier := f c.barrier }) where
  obufs := by
    show Shelf.Holds _ (List.map _ (List.modify _ _ _)) _ _
    rw [map_modify_of_eq (g := fun c : Context => { c with barrier := f c.barrier }) fun _ => rfl]
    exact h.obufs
  tbars := by
    show Shelf.Holds _ (List.map _ (List.modify _ _ _)) _ _
    rw [map_modify fun c : Context => show _ = f c.barrier from rfl]
    exact h.tbars.modify f

theorem Shifting.shift_of {handle h h' : Int} {obufs : Shelf Obuf} {tbars : Shelf (Nat → TbarItem)}
    (hobufs : seiShift b handle s.obufs = .ok (h, obufs))
    (htbars : s.tbars.shift b idup handle = .ok (h', tbars))
    (hcurrent : handle = -1 ∨ tbars.current ≠ 0) : s.shift b handle = .ok (h', ⟨obufs, tbars⟩) := by
  simp only [shift, hobufs, htbars, ok_bind, Build.assert_of hcurrent]
  rfl

/-- The first shift to a new context gives a handle to the one in use. -/
theorem Shifting.Shows.shift_first (h : s.Shows t) (hnamed : t.named = false) :
    ∃ s', s.shift b (-1) = .ok (0, s') ∧ s'.Shows { t with named := true } := by
  obtain ⟨hobufs, htbars⟩ := h
  rw [hnamed] at hobufs htbars
  obtain ⟨obufs, hrun, hobufs'⟩ := hobufs.shift_first (b := b)
  obtain ⟨tbars, hrun', htbars'⟩ := htbars.shift_first (b := b)
  exact ⟨_, Shifting.shift_of hrun hrun' (.inl rfl), hobufs', htbars'⟩

theorem Shifting.Shows.shift_new (h : s.Shows t) (hnamed : t.named = true) :
    ∃ s', s.shift b (-1) = .ok ((t.contexts.length : Int), s') ∧ s'.Shows (t.add b) := by
  obtain ⟨hobufs, htbars⟩ := h
  rw [hnamed] at hobufs htbars
  obtain ⟨obufs, hrun, hobufs'⟩ := hobufs.shift_new (b := b) (List.length_map _) rfl
  obtain ⟨tbars, hrun', htbars'⟩ := htbars.shift_new (b := b) (List.length_map _) (List.getElem_map _)
  refine ⟨_, Shifting.shift_of hrun hrun' (.inl rfl), ?_, ?_⟩
  · show Shelf.Holds _ (List.map _ (_ ++ _)) _ _
    rw [List.map_append]
    exact hobufs'
  · show Shelf.Holds _ (List.map _ (_ ++ _)) _ _
    rw [List.map_append]
    exact htbars'

/-- A shift to a handle that has been given out. -/
theorem Shifting.Shows.shift_to (h : s.Shows t) (hnamed : t.named = true) {j : Nat}
    (hj : j < t.contexts.length) :
    ∃ s', s.shift b j = .ok ((j : Int), s') ∧
      s'.Shows { t with current := j, current_lt := hj } := by
  obtain ⟨hobufs, htbars⟩ := h
  rw [hnamed] at hobufs htbars
  obtain ⟨obufs, hrun, hobufs'⟩ := hobufs.shift_to (b := b) (j := j) (by rwa [List.length_map])
  obtain ⟨tbars, hrun', htbars'⟩ := htbars.shift_to (b := b) (j := j) (by rwa [List.length_map])
  have hcurrent : tbars.current ≠ 0 := by rw [htbars'.current]; omega
  exact ⟨_, Shifting.shift_of hrun hrun' (.inr hcurrent), by rw [hnamed]; exact hobufs',
    by rw [hnamed]; exact htbars'⟩

/-- What the table does the thread does. -/
theorem Shifting.Shows.call (h : s.Shows t) (hcall : t.call b c = .ok (r, t')) :
    ∃ s', s.call b c = .ok (r, s') ∧ s'.Shows t' := by
  cases c with
  | output f =>
    cases hcall
    exact ⟨_, rfl, h.output f⟩
  | barrier f =>
    cases hcall
    exact ⟨_, rfl, h.barrier f⟩
  | shift handle =>
    have hlift : ∀ {j : Int} {s' : Shifting}, s.shift b handle = .ok (j, s') →
        s.call b (.shift handle) = .ok (some j, s') := by
      intro j s' hrun
      rw [Shifting.call, hrun, ok_bind]
      rfl
    simp only [ContextTable.call] at hcall
    split at hcall
    · next hnew =>
      subst hnew
      split at hcall
      · next hnamed =>
        cases hcall
        obtain ⟨s', hrun, hshows⟩ := h.shift_new (b := b) hnamed
        exact ⟨s', hlift hrun, hshows⟩
      · next hnamed =>
        cases hcall
        obtain ⟨s', hrun, hshows⟩ := h.shift_first (b := b) (by simpa using hnamed)
        exact ⟨s', hlift hrun, hshows⟩
    · split at hcall
      · next hlt =>
        split at hcall
        · next hvalid =>
          cases hcall
          obtain ⟨s', hrun, hshows⟩ := h.shift_to (b := b) hvalid.1 hlt
          rw [Int.toNat_of_nonneg hvalid.2] at hrun
          exact ⟨s', hlift hrun, hshows⟩
        · cases hcall
      · cases hcall

/-- With assertions the thread does no more than the table. -/
theorem Shifting.Shows.call_of_asserts (h : s.Shows t) (hb : b.ndebug = false)
    (hcall : s.call b c = .ok (r, s')) : ∃ t', t.call b c = .ok (r, t') ∧ s'.Shows t' := by
  cases htable : t.call b c with
  | ok x =>
    obtain ⟨r', t'⟩ := x
    obtain ⟨s'', hcall', hshows⟩ := h.call htable
    rw [hcall] at hcall'
    cases hcall'
    exact ⟨t', rfl, hshows⟩
  | error e =>
    exfalso
    cases c with
    | output f => cases htable
    | barrier f => cases htable
    | shift handle =>
      simp only [ContextTable.call] at htable
      split at htable
      · split at htable <;> cases htable
      · next hneg =>
        have hinvalid : ¬ (t.named = true ∧ 0 ≤ handle ∧
            handle < (t.contexts.map Context.output).length) := by
          rintro ⟨hnamed, hpos, hlt⟩
          rw [List.length_map] at hlt
          rw [dif_pos (by omega), if_pos ⟨hnamed, hpos⟩] at htable
          cases htable
        simp only [Shifting.call, Shifting.shift, bind_eq_ok] at hcall
        obtain ⟨_, ⟨x, hobufs, _⟩, _⟩ := hcall
        exact h.obufs.shift_invalid hb hneg hinvalid x hobufs

/-- In the end the objects at all addresses that were handed out are freed, each once. -/
theorem Shifting.Shows.fini (h : s.Shows t) :
    s.obufs.fini b = .ok (List.range' 1 (s.obufs.next - 1)) ∧
      s.tbars.fini b = .ok (List.range' 1 (s.tbars.next - 1)) := by
  rw [h.obufs.fini, h.tbars.fini, h.obufs.next, h.tbars.next]
  exact ⟨rfl, rfl⟩

/-- The two stashes act as one table of contexts. Whatever a thread does with handles that were
given out, it gets the handles of the table, a context has the output buffer and the barrier that
were in use under its handle, and in the end every buffer and every barrier is freed once. With
assertions other handles are refused. -/
theorem contextShift_refines (b : Build) (cs : List ContextCall) :
    (∀ rs t, runEach (ContextTable.call b) cs (ContextTable.init b) = .ok (rs, t) →
      ∃ s, runEach (Shifting.call b) cs (Shifting.init b) = .ok (rs, s) ∧ s.Shows t ∧
        s.obufs.fini b = .ok (List.range' 1 (s.obufs.next - 1)) ∧
        s.tbars.fini b = .ok (List.range' 1 (s.tbars.next - 1))) ∧
    (b.ndebug = false → ∀ rs s, runEach (Shifting.call b) cs (Shifting.init b) = .ok (rs, s) →
      ∃ t, runEach (ContextTable.call b) cs (ContextTable.init b) = .ok (rs, t)) := by
  have hinit := Shifting.shows_init b
  constructor
  · intro rs t hrun
    obtain ⟨s, hrun', hshows⟩ := runEach_simulates (R := fun t (s : Shifting) => s.Shows t)
      (f := ContextTable.call b) (g := Shifting.call b)
      (fun _ _ _ _ _ hshows hcall => hshows.call hcall) hinit hrun
    exact ⟨s, hrun', hshows, hshows.fini⟩
  · intro hb rs s hrun
    obtain ⟨t, hrun', _⟩ := runEach_simulates (R := fun (s : Shifting) t => s.Shows t)
      (f := Shifting.call b) (g := ContextTable.call b)
      (fun _ _ _ _ _ hshows hcall => hshows.call_of_asserts hb hcall) hinit hrun
    exact ⟨t, hrun'⟩

end Refinement

/-- Output under the first handle, a second context, and back to the first one. -/
theorem contextShift_refines_twoContexts :
    ∃ s, runEach (Shifting.call (Build.twoWay false false))
        [.shift (-1), .output Obuf.close, .shift (-1), .shift 0]
        (Shifting.init (Build.twoWay false false)) = .ok ([some 0, none, some 1, some 0], s) ∧
      s.obufs.fini (Build.twoWay false false) = .ok [1, 2] := by
  obtain ⟨s, hrun, hshows, hobufs, _⟩ := (contextShift_refines (Build.twoWay false false)
    [.shift (-1), .output Obuf.close, .shift (-1), .shift 0]).1 [some 0, none, some 1, some 0] _ rfl
  rw [hshows.obufs.next] at hobufs
  exact ⟨s, hrun, hobufs⟩

end LibSei
