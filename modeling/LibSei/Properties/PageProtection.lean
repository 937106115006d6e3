-- SUMMARY: Builds with HEAP_PROTECT: how many of the pages that a traversal unprotected are protected again by `sei_commit`.
import LibSei.Abuf.Record
import LibSei.ModeCow.Commit

/-!
# Protected pages

With `HEAP_PROTECT` the heap is read-only until a page is first written to. `sei_unprotect` then
makes the page writable and records it in `wpages`, and `sei_commit` goes through the record. The
loop counts up to the number of records left, which goes down as it pops them.
-/

namespace LibSei

open Memory Control

/-- `protect_t`. -/
inductive Prot where
  | read | write
  deriving DecidableEq, Repr

/-- A call of `protect_mem`. -/
structure ProtectCall where
  addr : Nat
  size : Nat
  prot : Prot
  deriving DecidableEq, Repr

/-- An address and a size as they are handed to `sei_unprotect`. -/
structure Page where
  addr : Nat
  size : UInt64
  deriving DecidableEq, Repr

/-- A page as it is recorded. -/
def Page.result (p : Page) : Nat × Nat := (p.addr, p.size.toNat)

/-- The call that makes a page read-only. -/
def Page.protect (p : Page) : ProtectCall := ⟨p.addr, p.size.toNat, .read⟩

/-- What builds with `HEAP_PROTECT` have besides the rest: the record of unprotected pages, and the
calls of `protect_mem` that have been made. -/
structure Pages where
  wpages : Abuf
  calls : List ProtectCall

namespace Pages

/-- `protect_mem`, for a call of `mprotect` that succeeds. -/
def protectMem (b : Build) (s : Pages) (addr size : Nat) (prot : Prot) : Exec Pages := do
  b.assert (addr ≠ 0) "invalid address"
  b.assert (0 < size) "size > 0"
  return { s with calls := s.calls ++ [⟨addr, size, prot⟩] }

/-- `sei_unprotect` in phase `p`. -/
def unprotect (b : Build) (s : Pages) (p : Int) (page : Page) : Exec Pages := do
  b.assert (p ≠ 1) "straaaange"
  if p = 0 ∨ p = -1 then
    let s := { s with wpages := s.wpages.push .uint64 page.addr page.size.toNat }
    s.protectMem b page.addr page.size.toNat .write
  else return s

/-- The loop at the end of `sei_commit` from index `i` on, for at most `n` iterations. -/
def protectLoop (b : Build) : Nat → Nat → Pages → Exec Pages
  | 0, _, s => return s
  | n + 1, i, s =>
      if (i : Int) < s.wpages.size then do
        let (ptr, size, wpages) ← s.wpages.pop b
        let s ← { s with wpages := wpages }.protectMem b ptr size .read
        protectLoop b n (i + 1) s
      else return s

/-- The end of `sei_commit`. Every iteration pops a record, so there are at most as many. -/
def protectAll (b : Build) (s : Pages) : Exec Pages := do
  let s ← protectLoop b s.wpages.pushed 0 s
  return { s with wpages := s.wpages.clean }

/-- `sei_commit`. -/
def commit (env : Env) (b : Build) (w : World) (s : Pages) : Exec (World × Pages) := do
  let w ← w.commit env b
  let s ← s.protectAll b
  return (w, s)

/-- Calls of `sei_unprotect` one after the other, each with the phase it is made in. -/
def unprotectEach (b : Build) : List (Int × Page) → Pages → Exec Pages
  | [], s => return s
  | (p, page) :: us, s => do
      let s ← s.unprotect b p page
      unprotectEach b us s

/-- The pages that are recorded. -/
def recorded (us : List (Int × Page)) : List Page :=
  (us.filter fun u => u.1 = 0 ∨ u.1 = -1).map Prod.snd

/-! ## The record -/

section Record

variable {b : Build} {s s' : Pages} {xs : List Page} {us : List (Int × Page)}

/-- `protect_mem` accepts the page. -/
def Valid (b : Build) (page : Page) : Prop := b.ndebug = true ∨ page.addr ≠ 0 ∧ 0 < page.size.toNat

/-- The pages `xs` are recorded and `k` of them have been popped. -/
structure Recorded (b : Build) (s : Pages) (xs : List Page) (k : Nat) : Prop where
  results : s.wpages.Results .uint64 (xs.map Page.result) k
  valid : ∀ page ∈ xs, Valid b page

theorem protectMem_eq_ok {addr size : Nat} {prot : Prot} :
    s.protectMem b addr size prot = .ok s' ↔
      (b.ndebug = true ∨ addr ≠ 0) ∧ (b.ndebug = true ∨ 0 < size) ∧
        s' = { s with calls := s.calls ++ [⟨addr, size, prot⟩] } := by
  rw [protectMem, seq_eq_ok, seq_eq_ok, Build.assert_eq_ok, Build.assert_eq_ok, pure_eq_ok,
    Except.ok.injEq, eq_comm (b := s')]

theorem Valid.protectMem {page : Page} (h : Valid b page) (s : Pages) (prot : Prot) :
    s.protectMem b page.addr page.size.toNat prot =
      .ok { s with calls := s.calls ++ [⟨page.addr, page.size.toNat, prot⟩] } :=
  protectMem_eq_ok.mpr ⟨h.imp_right And.left, h.imp_right And.right, rfl⟩

theorem Recorded.unprotect {p : Int} {page : Page} (h : Recorded b s xs 0)
    (hrun : s.unprotect b p page = .ok s') : Recorded b s' (xs ++ recorded [(p, page)]) 0 := by
  rw [Pages.unprotect, seq_eq_ok] at hrun
  obtain ⟨-, hrun⟩ := hrun
  by_cases hp : p = 0 ∨ p = -1
  · rw [if_pos hp] at hrun
    obtain ⟨haddr, hsize, rfl⟩ := protectMem_eq_ok.mp hrun
    have hrec : recorded [(p, page)] = [page] := by simp [recorded, hp]
    have hpush := h.results.push page.addr page.size.toNat
    rw [hrec]
    refine ⟨?_, fun q hq => ?_⟩
    · rw [List.map_append]
      exact hpush
    · rcases List.mem_append.mp hq with hq | hq
      · exact h.valid q hq
      · rw [List.mem_singleton.mp hq]
        rcases haddr with hb | haddr
        · exact .inl hb
        · exact hsize.imp_right fun hsize => ⟨haddr, hsize⟩
  · rw [if_neg hp] at hrun
    cases hrun
    have hrec : recorded [(p, page)] = [] := by simpa [recorded] using hp
    rw [hrec, List.append_nil]
    exact h

theorem recorded_cons (u : Int × Page) (us : List (Int × Page)) :
    recorded (u :: us) = recorded [u] ++ recorded us := by
  rw [recorded, recorded, recorded, ← List.map_append, ← List.filter_append, List.singleton_append]

/-- A traversal records the pages it makes writable, in order. -/
theorem Recorded.unprotectEach (h : Recorded b s xs 0) (hrun : unprotectEach b us s = .ok s') :
    Recorded b s' (xs ++ recorded us) 0 := by
  induction us generalizing s xs with
  | nil =>
    cases hrun
    rw [recorded, List.filter_nil, List.map_nil, List.append_nil]
    exact h
  | cons u us ih =>
    rw [Pages.unprotectEach, bind_eq_ok] at hrun
    obtain ⟨s1, hfirst, hrest⟩ := hrun
    rw [recorded_cons, ← List.append_assoc]
    exact ih (h.unprotect hfirst) hrest

end Record

/-! ## The loop -/

section Loop

variable {b : Build} {s s' : Pages} {xs : List Page} {us : List (Int × Page)} {n i : Nat}

/-- The loop pops one record for each step of its index, so they meet in the middle. -/
theorem Recorded.protectLoop (h : Recorded b s xs i) (hn : (xs.length + 1) / 2 ≤ i + n) :
    ∃ s', protectLoop b n i s = .ok s' ∧
      s'.calls = s.calls ++ ((xs.drop i).take ((xs.length + 1) / 2 - i)).map Page.protect := by
  induction n generalizing s i with
  | zero =>
    have hnone : (xs.length + 1) / 2 - i = 0 := by omega
    exact ⟨s, rfl, by rw [hnone, List.take_zero, List.map_nil, List.append_nil]⟩
  | succ n ih =>
    have hsize : s.wpages.size = (xs.length : Int) - i := by
      rw [Abuf.size, h.results.pushed, h.results.poped, List.length_map]
    rw [Pages.protectLoop, hsize]
    by_cases hi : (i : Int) < (xs.length : Int) - i
    · have hlt : i < xs.length := by omega
      have hpop : s.wpages.pop b = .ok (xs[i].addr, xs[i].size.toNat,
          { s.wpages with poped := i + 1 }) := by
        rw [h.results.pop (by simpa using hlt)]
        simp [Page.result, Nat.mod_eq_of_lt xs[i].size.toNat_lt]
      have hvalid := h.valid xs[i] (List.getElem_mem hlt)
      rw [if_pos hi, hpop, ok_bind]
      simp only [hvalid.protectMem, ok_bind]
      obtain ⟨s', hrun, hcalls⟩ := ih (i := i + 1)
        (s := ⟨{ s.wpages with poped := i + 1 }, s.calls ++ [xs[i].protect]⟩)
        ⟨h.results.poped_succ, h.valid⟩ (by omega)
      refine ⟨s', hrun, ?_⟩
      have hleft : (xs.length + 1) / 2 - i = (xs.length + 1) / 2 - (i + 1) + 1 := by omega
      rw [hcalls, List.append_assoc, hleft, List.drop_eq_getElem_cons hlt, List.take_succ_cons,
        List.map_cons]
      rfl
    · have hnone : (xs.length + 1) / 2 - i = 0 := by omega
      rw [if_neg hi]
      exact ⟨s, rfl, by rw [hnone, List.take_zero, List.map_nil, List.append_nil]⟩

/-- Only the first half of the recorded pages is protected again. -/
theorem Recorded.protectAll (h : Recorded b s xs 0) :
    ∃ s', s.protectAll b = .ok s' ∧ s'.wpages.Empty ∧
      s'.calls = s.calls ++ (xs.take ((xs.length + 1) / 2)).map Page.protect := by
  have hpushed : s.wpages.pushed = xs.length := by
    rw [h.results.pushed, List.length_map]
  obtain ⟨s', hrun, hcalls⟩ := h.protectLoop (n := s.wpages.pushed) (by omega)
  refine ⟨{ s' with wpages := s'.wpages.clean }, ?_, Abuf.empty_clean _, hcalls⟩
  rw [Pages.protectAll, hrun]
  rfl

end Loop

/-! ## Pages that stay writable -/

/-- After a traversal has recorded pages, the `sei_commit` that ends it clears the record and
protects every recorded page exactly once, if and only if there is at most one. -/
theorem commit_protects_iff {env : Env} {b : Build} {w w' : World} {s0 s : Pages}
    {us : List (Int × Page)} (hempty : s0.wpages.Empty) (hrun : unprotectEach b us s0 = .ok s)
    (hcommit : w.commit env b = .ok w') :
    ∃ s', commit env b w s = .ok (w', s') ∧ s'.wpages.Empty ∧
      ((∃ calls, s'.calls = s.calls ++ calls ∧ calls.Perm ((recorded us).map Page.protect)) ↔
        (recorded us).length ≤ 1) := by
  have hstart : Recorded b s0 [] 0 := ⟨hempty.results, nofun⟩
  have hrec : Recorded b s (recorded us) 0 := hstart.unprotectEach hrun
  obtain ⟨s', hprotect, hclean, hcalls⟩ := hrec.protectAll
  refine ⟨s', ?_, hclean, ?_⟩
  · rw [commit, hcommit, ok_bind, hprotect]
    rfl
  constructor
  · rintro ⟨calls, hsame, hperm⟩
    have heq : calls = ((recorded us).take (((recorded us).length + 1) / 2)).map Page.protect :=
      List.append_cancel_left (hsame.symm.trans hcalls)
    have hlength := hperm.length_eq
    rw [heq, List.length_map, List.length_take, List.length_map] at hlength
    omega
  · intro hle
    refine ⟨_, hcalls, ?_⟩
    rw [List.take_of_length_le (by omega)]

/-- One page is written to in a transaction of two phases. -/
theorem commit_protects_onePage :
    ∃ w w' s s', World.finalPhase Env.plain (.twoWay false false) (fun _ => [])
        (World.init (.twoWay false false) fun _ => 0) = .ok w ∧
      unprotectEach (.twoWay false false) [(0, ⟨4096, 1⟩)] ⟨Abuf.init 100 (by decide), []⟩ = .ok s ∧
      commit Env.plain (.twoWay false false) w s = .ok (w', s') ∧
      ∃ calls, s'.calls = s.calls ++ calls ∧ calls.Perm [⟨4096, 1, .read⟩] := by
  obtain ⟨s, hrun⟩ : ∃ s, unprotectEach (.twoWay false false) [(0, ⟨4096, 1⟩)]
      ⟨Abuf.init 100 (by decide), []⟩ = .ok s := ⟨_, rfl⟩
  obtain ⟨w, w', hfinal, hcommit⟩ : ∃ w w', World.finalPhase Env.plain (.twoWay false false)
      (fun _ => []) (World.init (.twoWay false false) fun _ => 0) = .ok w ∧
      w.commit Env.plain (.twoWay false false) = .ok w' := ⟨_, _, rfl, rfl⟩
  obtain ⟨s', hdone, -, hiff⟩ := commit_protects_iff ⟨rfl, rfl⟩ hrun hcommit
  exact ⟨w, w', s, s', hfinal, hrun, hdone, hiff.mpr (by decide)⟩

/-- Of two pages the second stays writable. -/
theorem commit_protects_twoPages :
    ∃ w w' s s', World.finalPhase Env.plain (.twoWay false false) (fun _ => [])
        (World.init (.twoWay false false) fun _ => 0) = .ok w ∧
      unprotectEach (.twoWay false false) [(0, ⟨4096, 1⟩), (0, ⟨8192, 1⟩)]
        ⟨Abuf.init 100 (by decide), []⟩ = .ok s ∧
      commit Env.plain (.twoWay false false) w s = .ok (w', s') ∧
      s'.calls = [⟨4096, 1, .write⟩, ⟨8192, 1, .write⟩, ⟨4096, 1, .read⟩] :=
  ⟨_, _, _, _, rfl, rfl, rfl, rfl⟩

end Pages

end LibSei
