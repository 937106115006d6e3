-- SUMMARY: Which blocks the later phases of a transaction are handed when their requests differ from those of phase 0.
import LibSei.ModeCow.Allocations
import LibSei.ModeCow.Commit

/-!
# Replayed allocations

In the phases behind phase 0, `talloc_malloc` reads the next entry of the allocation table,
whatever size is asked for and however many entries phase 0 has made. Behind them the table
holds what earlier transactions have left. The result here says for which requests the block
handed out is one that phase 0 allocated, and large enough, or no block is handed out and the
transaction is bound to fail.
-/

namespace LibSei

open Memory Control

namespace World

variable {env : Env} {b : Build} {w w' w0 : World} {n p : Nat} {cs : List Call}
  {css phases : Nat → List Call}

/-- The entries behind those of the transaction are the ones it found. -/
def KeepsStale (w0 : World) (css : Nat → List Call) (w : World) : Prop :=
  ∀ i, (requests (css 0)).length ≤ i → w.sei.talloc.allocations i = w0.sei.talloc.allocations i

theorem KeepsStale.call {k : Nat} {c : Call} (h : KeepsStale w0 css w)
    (hallocates : Allocates env n w0 css w) (hk : k < n) (htalloc : w.sei.talloc.p = k)
    (hrun : w.call env b c = .ok w') :
    KeepsStale w0 (Function.update css k (css k ++ [c])) w' := by
  intro i hi
  have hmore : (requests (css 0)).length ≤ i := by
    refine le_trans ?_ hi
    by_cases hzero : 0 = k
    · subst hzero
      simp [requests]
    · rw [Function.update_of_ne hzero]
  cases hc : c.malloced? with
  | none => rw [(call_frame hrun).talloc hc, h i hmore]
  | some size =>
    cases c with
    | malloc size' =>
      simp only [World.call, World.malloc, bind_eq_ok, pure_eq_ok, Except.ok.injEq] at hrun
      obtain ⟨_, ⟨⟨addr, t, m⟩, hmalloc, rfl⟩, rfl⟩ := hrun
      rcases Talloc.malloc_eq_ok hmalloc with ⟨hp, rfl, rfl, rfl⟩ | ⟨_, rfl, rfl, rfl⟩
      · -- phase 0 records the block at the end of its entries
        obtain rfl : k = 0 := htalloc.symm.trans hp
        have hlast : i ≠ w.sei.talloc.size 0 := by
          rw [hallocates.size 0 hk]
          simp [requests, Call.malloced?] at hi
          simp only [requests]
          omega
        exact (Function.update_of_ne hlast _ _).trans (h i hmore)
      · exact h i hmore
    | _ => cases hc

theorem Startable.keepsStale (h : w0.Startable b n) (hp : p < n)
    (hrun : World.inPhase env b phases w0 p cs = .ok w) : KeepsStale w0 (upTo phases p cs) w := by
  refine (h.inPhase_induction (R := fun _ css w => Allocates env n w0 css w ∧ KeepsStale w0 css w)
    ⟨h.allocates_begin, ?_⟩ ?_ ?_ hp hrun).2
  · intro i _
    unfold beginPhase
    split <;> rfl
  · rintro k css c w w' hk _ htalloc ⟨hallocates, hstale⟩ hrun
    exact ⟨hallocates.call hk htalloc hrun, hstale.call hallocates hk htalloc hrun⟩
  · rintro k css w w' _ _ ⟨hallocates, hstale⟩ hrun
    exact ⟨hallocates.switch hrun, fun i hi => by rw [(switch_allocations hrun).1, hstale i hi]⟩

/-! ## Requests of a later phase -/

/-- Wherever the transaction goes from the operations `cs` of phase `p`, `talloc_clean` does not let
its commit pass. -/
def Rejected (env : Env) (b : Build) (w0 : World) (phases : Nat → List Call) (p : Nat)
    (cs : List Call) : Prop :=
  ∀ phases' rest w, (∀ j < p, phases' j = phases j) → phases' p = cs ++ rest →
    World.finalPhase env b phases' w0 = .ok w → ∀ t, w.sei.talloc.clean b ≠ .ok t

/-- The request was answered with a block of the list that is large enough, or the process was
stopped, or the answer is null and the transaction is rejected. -/
def Contained (blocks : List TallocAllocation) (size : Nat) (rejected : Prop) :
    Exec (Nat × World) → Prop
  | .ok r => (∃ a ∈ blocks, a.addr ≠ 0 ∧ a.addr = r.1 ∧ size ≤ a.size) ∨ r.1 = 0 ∧ rejected
  | .error (.outOfBounds _) => False
  | .error _ => True

/-- The address at place `k` of the table in the phases behind phase 0: that of a block of this
transaction, or what an earlier one has left there. -/
def replayed (env : Env) (w0 : World) (sizes : List Nat) (k : Nat) : Nat :=
  ((env.blocks w0.machine.nalloc sizes)[k]?.getD (w0.sei.talloc.allocations k)).addr

theorem Startable.allocations_inPhase (h : w0.Startable b n) (hpos : 1 ≤ p) (hlt : p < n)
    (hrun : World.inPhase env b phases w0 p cs = .ok w) (k : Nat) :
    (w.sei.talloc.allocations k).addr = replayed env w0 (requests (phases 0)) k := by
  have hfirst : upTo phases p cs 0 = phases 0 := upTo_of_lt hpos
  have hallocates := h.allocates hlt hrun
  have hstale := h.keepsStale hlt hrun
  unfold replayed
  cases hblock : (env.blocks w0.machine.nalloc (requests (phases 0)))[k]? with
  | some a => rw [hallocates.allocations k a (by rw [hfirst, hblock]), Option.getD_some]
  | none =>
    rw [List.getElem?_eq_none_iff, Env.length_blocks] at hblock
    rw [hstale k (by rw [hfirst]; exact hblock), Option.getD_none]

/-- A request behind phase 0 reads the next place of the table. -/
theorem Startable.malloc_eq (h : w0.Startable b n) (hpos : 1 ≤ p) (hlt : p < n)
    (hrun : World.inPhase env b phases w0 p cs = .ok w) (size : Nat) :
    ∃ w', w.malloc env b size = if (requests cs).length < tallocMaxAllocs then
        .ok (replayed env w0 (requests (phases 0)) (requests cs).length, w')
      else .error (.outOfBounds "talloc->allocations") := by
  have hp : w.sei.talloc.p = p := (h.inPhase hlt hrun).talloc_p
  have hcount : w.sei.talloc.size p = (requests cs).length := by
    rw [(h.allocates hlt hrun).size p hlt, upTo_self]
  have hlevel : p < b.redundancy := hlt.trans_le h.le
  have hphase : 0 ≤ w.sei.talloc.p ∧ w.sei.talloc.p < b.redundancy := by omega
  have hlater : w.sei.talloc.p > 0 ∧ w.sei.talloc.p < b.redundancy := by omega
  rw [World.malloc, Talloc.malloc, Build.assert_of hphase, ok_bind, if_neg (by omega),
    Build.assert_of hlater, ok_bind, inBounds_of hlater.2, ok_bind, hp, hcount]
  rw [← h.allocations_inPhase hpos hlt hrun]
  by_cases hroom : (requests cs).length < tallocMaxAllocs
  · simp only [inBounds_of hroom, if_pos hroom]
    exact ⟨_, rfl⟩
  · simp only [inBounds, require_of_not hroom, if_neg hroom]
    exact ⟨w, rfl⟩

/-! ## Transactions that are rejected -/

theorem Rejected.not_committed {phases' : Nat → List Call} {rest : List Call} {wc : World}
    (h : Rejected env b w0 phases p cs) (hbefore : ∀ j < p, phases' j = phases j)
    (hp : phases' p = cs ++ rest) (hrun : World.finalPhase env b phases' w0 = .ok w) :
    ¬ Committed env b w wc := fun hcommit =>
  h phases' rest w hbefore hp hrun wc.sei.talloc hcommit.clean

theorem inPhase_malloc {size addr : Nat} (hrun : World.inPhase env b phases w0 p cs = .ok w)
    (hmalloc : w.malloc env b size = .ok (addr, w')) :
    World.inPhase env b phases w0 p (cs ++ [.malloc size]) = .ok w' := by
  refine inPhase_append hrun ?_
  rw [World.calls, World.call, hmalloc]
  rfl

/-- Further requests are served as long as the table has places. -/
theorem Startable.exists_mallocs (h : w0.Startable b n) (hpos : 1 ≤ p) (hlt : p < n)
    (hrun : World.inPhase env b phases w0 p cs = .ok w) (sizes : List Nat)
    (hroom : (requests cs).length + sizes.length ≤ tallocMaxAllocs) :
    ∃ w', World.inPhase env b phases w0 p (cs ++ sizes.map .malloc) = .ok w' := by
  induction sizes generalizing cs w with
  | nil => exact ⟨w, by rw [List.map_nil, List.append_nil]; exact hrun⟩
  | cons size sizes ih =>
    rw [List.length_cons] at hroom
    obtain ⟨w1, hmalloc⟩ := h.malloc_eq hpos hlt hrun size
    rw [if_pos (by omega)] at hmalloc
    have hmore : (requests (cs ++ [.malloc size])).length = (requests cs).length + 1 := by
      simp [requests, Call.malloced?]
    rw [List.map_cons, List.append_cons]
    exact ih (inPhase_malloc hrun hmalloc) (by omega)

/-- The phases from `p` on, when each of them makes the requests of the list. -/
def refilled (phases : Nat → List Call) (p : Nat) (cs : List Call) (sizes : List Nat) (j : Nat) :
    List Call :=
  if j < p then phases j else if j = p then cs else sizes.map .malloc

theorem refilled_self {sizes : List Nat} : refilled phases p cs sizes p = cs := by
  rw [refilled, if_neg (Nat.lt_irrefl p), if_pos rfl]

theorem refilled_of_lt {sizes : List Nat} {j : Nat} (hj : j < p) :
    refilled phases p cs sizes j = phases j := if_pos hj

theorem refilled_of_gt {sizes : List Nat} {j : Nat} (hj : p < j) :
    refilled phases p cs sizes j = sizes.map .malloc := by
  rw [refilled, if_neg (by omega), if_neg (by omega)]

theorem Startable.exists_refilled (h : w0.Startable b n)
    (hrun : World.inPhase env b phases w0 p cs = .ok w) {sizes : List Nat}
    (hroom : sizes.length ≤ tallocMaxAllocs) {j : Nat} (hj : p ≤ j) :
    j < n → ∃ w', World.inPhase env b (refilled phases p cs sizes) w0 j
      (refilled phases p cs sizes j) = .ok w' := by
  induction j, hj using Nat.le_induction with
  | base =>
    intro _
    refine ⟨w, ?_⟩
    rw [refilled_self, World.inPhase, phaseStart_congr fun j hj => refilled_of_lt hj]
    exact hrun
  | succ j hj ih =>
    intro hlast
    obtain ⟨w1, hrun1⟩ := ih (by omega)
    obtain ⟨w2, hswitch⟩ := (h.inPhase (by omega) hrun1).exists_switch env hlast h.le (sized_writesOf _)
    have hstart : World.inPhase env b (refilled phases p cs sizes) w0 (j + 1) [] = .ok w2 := by
      rw [World.inPhase, bind_eq_ok] at hrun1
      obtain ⟨w3, hstart, hcalls⟩ := hrun1
      rw [World.inPhase, World.phaseStart, hstart, ok_bind, hcalls, ok_bind, hswitch]
      rfl
    rw [refilled_of_gt (by omega)]
    exact h.exists_mallocs (by omega) hlast hstart sizes (by simpa [requests] using hroom)

/-- `talloc_clean` lets a transaction pass exactly when its phases made equally many requests. -/
theorem Startable.clean_finalPhase (h : w0.Startable b n)
    (hrun : World.finalPhase env b phases w0 = .ok w) :
    (∃ t, w.sei.talloc.clean b = .ok t) ↔
      ∀ j, 1 ≤ j → j < n → (requests (phases j)).length = (requests (phases 0)).length := by
  have hn := h.two_le
  rw [World.finalPhase, h.level] at hrun
  have hin := h.inPhase (by omega) hrun
  have hsize := (h.allocates (by omega) hrun).size
  have hfinal : w.sei.talloc.p + 1 = w.sei.talloc.redundancyLevel := by
    rw [hin.talloc_p, hin.talloc_level]
    omega
  simp only [Talloc.clean_eq_ok hfinal, exists_and_left, exists_eq, and_true, Talloc.SameCounts,
    hin.talloc_level]
  refine forall_congr' fun j => forall₂_congr fun _ hj => ?_
  rw [hsize j hj, hsize 0 (by omega), upTo_of_le (by omega), upTo_of_le (by omega)]

/-- The phase that is under way has made more requests than phase 0, or one that is over has not made
as many. -/
def Outrun (phases : Nat → List Call) (p : Nat) (cs : List Call) : Prop :=
  (requests (phases 0)).length < (requests cs).length ∨
    ∃ j, 1 ≤ j ∧ j < p ∧ (requests (phases j)).length ≠ (requests (phases 0)).length

/-- Until then the phases can still make up for missing requests. -/
theorem Startable.exists_clean (h : w0.Startable b n) (hpos : 1 ≤ p) (hlt : p < n)
    (hrun : World.inPhase env b phases w0 p cs = .ok w) (hleft : ¬ Outrun phases p cs) :
    ∃ phases' rest w' t, (∀ j < p, phases' j = phases j) ∧ phases' p = cs ++ rest ∧
      World.finalPhase env b phases' w0 = .ok w' ∧ w'.sei.talloc.clean b = .ok t := by
  rw [Outrun, not_or, not_lt] at hleft
  obtain ⟨hfew, hsame⟩ := hleft
  have hcount : (requests (phases 0)).length ≤ tallocMaxAllocs := by
    have hle := h.requests_le hlt hrun 0
    rwa [upTo_of_lt (by omega)] at hle
  let missing := List.replicate ((requests (phases 0)).length - (requests cs).length) 0
  have hmissing : (requests cs).length + missing.length = (requests (phases 0)).length := by
    rw [List.length_replicate]
    omega
  obtain ⟨w1, hrun1⟩ := h.exists_mallocs hpos hlt hrun missing (by omega)
  obtain ⟨w2, hrun2⟩ := h.exists_refilled hrun1 hcount (j := n - 1) (by omega) (by omega)
  have hfinal : World.finalPhase env b (refilled phases p (cs ++ missing.map .malloc)
      (requests (phases 0))) w0 = .ok w2 := by
    rw [World.finalPhase, h.level]
    exact hrun2
  obtain ⟨t, ht⟩ := (h.clean_finalPhase hfinal).mpr fun j hj _ => by
    rw [refilled_of_lt hpos]
    rcases Nat.lt_trichotomy j p with hjp | rfl | hjp
    · rw [refilled_of_lt hjp]
      by_contra hne
      exact hsame ⟨j, hj, hjp, hne⟩
    · rw [refilled_self, requests_append, requests_mallocs, List.length_append, hmissing]
    · rw [refilled_of_gt hjp, requests_mallocs]
  exact ⟨_, _, w2, t, fun j hj => refilled_of_lt hj, refilled_self, hfinal, ht⟩

theorem Startable.rejected_iff (h : w0.Startable b n) (hpos : 1 ≤ p) (hlt : p < n)
    (hrun : World.inPhase env b phases w0 p cs = .ok w) :
    Rejected env b w0 phases p cs ↔ Outrun phases p cs := by
  constructor
  · intro hrejected
    by_contra hleft
    obtain ⟨phases', rest, w', t, hbefore, hp, hfinal, ht⟩ := h.exists_clean hpos hlt hrun hleft
    exact hrejected phases' rest w' hbefore hp hfinal t ht
  · intro hout phases' rest w1 hbefore hp hrun1 t ht
    have hcounts := (h.clean_finalPhase hrun1).mp ⟨t, ht⟩
    rw [hbefore 0 hpos] at hcounts
    rcases hout with hmore | ⟨j, hj, hjp, hne⟩
    · have hphase := hcounts p hpos hlt
      rw [hp, requests_append, List.length_append] at hphase
      omega
    · exact hne (hbefore j hjp ▸ hcounts j hj (by omega))

/-- A request behind phase 0 is contained exactly when the address at its place of the table,
counted by the requests of its own phase, is that of a block which phase 0 allocated with at
least this size, or it is null and the phases cannot make equally many requests any more. Such a
transaction is not committed. -/
theorem malloc_contained_iff (h : w0.Startable b n) (hpos : 1 ≤ p) (hlt : p < n)
    (hrun : World.inPhase env b phases w0 p cs = .ok w) (size : Nat) :
    (Contained (env.blocks w0.machine.nalloc (requests (phases 0))) size
        (Rejected env b w0 phases p (cs ++ [.malloc size])) (w.malloc env b size) ↔
      (requests cs).length < tallocMaxAllocs ∧
        ((∃ a ∈ env.blocks w0.machine.nalloc (requests (phases 0)), a.addr ≠ 0 ∧
            a.addr = replayed env w0 (requests (phases 0)) (requests cs).length ∧ size ≤ a.size) ∨
          replayed env w0 (requests (phases 0)) (requests cs).length = 0 ∧
            Outrun phases p (cs ++ [.malloc size]))) ∧
    (Rejected env b w0 phases p (cs ++ [.malloc size]) →
      ∀ phases' rest w1 w2, (∀ j < p, phases' j = phases j) →
        phases' p = cs ++ [.malloc size] ++ rest →
        World.finalPhase env b phases' w0 = .ok w1 → ¬ Committed env b w1 w2) := by
  refine ⟨?_, fun hrejected phases' rest w1 w2 hbefore hp hfinal =>
    hrejected.not_committed hbefore hp hfinal⟩
  obtain ⟨w', hmalloc⟩ := h.malloc_eq hpos hlt hrun size
  rw [hmalloc]
  split
  · next hroom =>
    rw [if_pos hroom] at hmalloc
    have hrejected := h.rejected_iff hpos hlt (inPhase_malloc hrun hmalloc)
    rw [Contained, hrejected, and_iff_right hroom]
  · next hroom => exact ⟨fun hout => absurd hout id, fun hin => absurd hin.1 hroom⟩

/-- Phase 1 repeats the request of phase 0 and is handed its block. A phase 1 that makes the only
request is given null. -/
theorem malloc_contained_repeated :
    ∃ w w', World.inPhase Env.plain (Build.twoWay true false) (fun _ => [.malloc 8])
        (World.init (Build.twoWay true false) fun _ => 0) 1 [] = .ok w ∧
      Contained [⟨4096, 8⟩] 8 (Rejected Env.plain (Build.twoWay true false)
        (World.init (Build.twoWay true false) fun _ => 0) (fun _ => [.malloc 8]) 1 [.malloc 8])
        (w.malloc Env.plain (Build.twoWay true false) 8) ∧
      World.inPhase Env.plain (Build.twoWay true false) (fun _ => [])
        (World.init (Build.twoWay true false) fun _ => 0) 1 [] = .ok w' ∧
      Contained [] 8 (Rejected Env.plain (Build.twoWay true false)
        (World.init (Build.twoWay true false) fun _ => 0) (fun _ => []) 1 [.malloc 8])
        (w'.malloc Env.plain (Build.twoWay true false) 8) := by
  obtain ⟨w, hrun⟩ : ∃ w, World.inPhase Env.plain (Build.twoWay true false) (fun _ => [.malloc 8])
      (World.init (Build.twoWay true false) fun _ => 0) 1 [] = .ok w := ⟨_, rfl⟩
  obtain ⟨w', hrun'⟩ : ∃ w, World.inPhase Env.plain (Build.twoWay true false) (fun _ => [])
      (World.init (Build.twoWay true false) fun _ => 0) 1 [] = .ok w := ⟨_, rfl⟩
  have hiff := malloc_contained_iff (World.idle_init _ _).startable (le_refl 1) (by decide) hrun 8
  have hiff' := malloc_contained_iff (World.idle_init _ _).startable (le_refl 1) (by decide) hrun' 8
  exact ⟨w, w', hrun,
    hiff.1.mpr ⟨by decide, .inl ⟨⟨4096, 8⟩, by decide, by decide, rfl, le_refl _⟩⟩,
    hrun', hiff'.1.mpr ⟨by decide, .inr ⟨rfl, .inl (by decide)⟩⟩⟩

/-- Phase 1 asks for a page and is handed the eight bytes of phase 0, and the transaction is
committed. A further request is answered with a block of the transaction before. -/
theorem malloc_escapes :
    ∃ w w' w'', World.finalPhase Env.plain (Build.twoWay true false)
        (fun k => if k = 0 then [.malloc 8] else [.malloc 4096])
        (World.init (Build.twoWay true false) fun _ => 0) = .ok w ∧
      (∃ w1, World.inPhase Env.plain (Build.twoWay true false) (fun _ => [.malloc 8])
          (World.init (Build.twoWay true false) fun _ => 0) 1 [] = .ok w1 ∧
        w1.malloc Env.plain (Build.twoWay true false) 4096 = .ok (4096, w)) ∧
      w.commit Env.plain (Build.twoWay true false) = .ok w' ∧
      World.inPhase Env.plain (Build.twoWay true false) (fun _ => []) w' 1 [] = .ok w'' ∧
      ∃ w2, w''.malloc Env.plain (Build.twoWay true false) 8 = .ok (4096, w2) :=
  ⟨_, _, _, rfl, ⟨_, rfl, rfl⟩, rfl, rfl, _, rfl⟩

end World

end LibSei
