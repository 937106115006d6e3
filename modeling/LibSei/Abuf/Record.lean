-- SUMMARY: An `abuf` as a record of results: what is pushed in one phase is popped in the same order in the next.
import LibSei.Abuf.Basic

/-!
# Records of results

The wrappers of the pthread functions and of some system calls use an `abuf` of their own.
Phase 0 pushes the result of every call it makes, under an address that tells the calls
apart; later phases pop the results instead of calling. Rewinding the buffer makes it
ready to be read again.
-/

namespace LibSei

open Memory Control

namespace Abuf

/-- `ABUF_POP`. -/
def popType (b : Build) (a : Abuf) (t : UIntTy) (addr : Nat) : Exec (Nat × Abuf) := do
  b.assert (a.poped < a.pushed) "no entry to be read"
  let e ← a.entryAt a.poped
  failIfn (e.addr = addr) "reading wrong address"
  b.assert (e.size = t.sizeof) "reading wrong size"
  return (e.wvalue.wvax t addr, { a with poped := a.poped + 1 })

/-- `abuf_pop`: the address and the value of the next entry. -/
def pop (b : Build) (a : Abuf) : Exec (Nat × Nat × Abuf) := do
  b.assert (a.poped < a.pushed) "no entry to be read"
  let e ← a.entryAt a.poped
  b.assert (e.size = UIntTy.sizeof .uint64) "reading wrong size"
  return (e.addr, e.wvax .uint64, { a with poped := a.poped + 1 })

/-- The entry for the result `x.2` of a call with the address `x.1`. -/
def resultEntry (t : UIntTy) (x : Nat × Nat) : Write :=
  ⟨x.1, t.sizeof, x.2 % 256 ^ t.sizeof, Nat.mod_lt _ (Nat.pow_pos (by decide))⟩

/-- The buffer holds the results `xs`, of which `k` have been read. -/
structure Results (a : Abuf) (t : UIntTy) (xs : List (Nat × Nat)) (k : Nat) : Prop where
  holds : a.Holds (xs.map (resultEntry t))
  poped : a.poped = k

section Results

variable {a : Abuf} {b : Build} {t : UIntTy} {xs : List (Nat × Nat)} {k addr v : Nat}

theorem Empty.results (h : a.Empty) : a.Results t [] 0 := ⟨h.holds, h.poped⟩

theorem empty_clean (a : Abuf) : a.clean.Empty := ⟨rfl, rfl⟩

theorem Results.pushed (h : a.Results t xs k) : a.pushed = xs.length :=
  h.holds.pushed.trans (by simp)

theorem Results.push (h : a.Results t xs k) (addr v : Nat) :
    (a.push t addr v).Results t (xs ++ [(addr, v)]) k where
  holds := by
    rw [List.map_append]
    exact h.holds.push rfl rfl rfl
  poped := h.poped

theorem Results.rewind (h : a.Results t xs k) : a.rewind.Results t xs 0 :=
  ⟨⟨h.holds.pushed, h.holds.entry⟩, rfl⟩

/-- The next result is where the reading stands. -/
theorem Results.entry (h : a.Results t xs k) (hk : k < xs.length) :
    a.entryAt a.poped = .ok (a.buf k) ∧ (a.buf k).addr = xs[k].1 ∧ (a.buf k).size = t.sizeof ∧
      (a.buf k).wvax t = xs[k].2 % 256 ^ t.sizeof := by
  have hle := a.pushed_le
  have hpushed := h.pushed
  obtain ⟨haddr, hsize, hval⟩ := h.holds.entry k (by simpa using hk)
  rw [List.getElem_map] at haddr hsize hval
  have hty : UIntTy.ofSize? (a.buf k).size = some t := by
    rw [hsize]
    exact t.ofSize?_sizeof
  rw [AbufEntry.val_of_ofSize? hty] at hval
  refine ⟨?_, haddr, hsize, hval⟩
  rw [entryAt, h.poped, inBounds_of (by omega), ok_bind]
  rfl

/-- Reading the next result with the address it was pushed under. -/
theorem Results.popType (h : a.Results t xs k) (hk : k < xs.length) (haddr : xs[k].1 = addr) :
    a.popType b t addr = .ok (xs[k].2 % 256 ^ t.sizeof, { a with poped := k + 1 }) := by
  obtain ⟨hentry, haddr', hsize, hval⟩ := h.entry hk
  have hlt : a.poped < a.pushed := by rw [h.poped, h.pushed]; exact hk
  have hread : (a.buf k).wvalue.wvax t addr = xs[k].2 % 256 ^ t.sizeof := by
    rw [← haddr, ← haddr', ← hval]
    rfl
  rw [Abuf.popType, Build.assert_of hlt, ok_bind, hentry, ok_bind, failIfn_of (haddr'.trans haddr),
    ok_bind, Build.assert_of hsize, ok_bind, hread, h.poped]
  rfl

/-- Reading the next result together with its address. -/
theorem Results.pop (h : a.Results .uint64 xs k) (hk : k < xs.length) :
    a.pop b = .ok (xs[k].1, xs[k].2 % 256 ^ 8, { a with poped := k + 1 }) := by
  obtain ⟨hentry, haddr, hsize, hval⟩ := h.entry hk
  have hlt : a.poped < a.pushed := by rw [h.poped, h.pushed]; exact hk
  rw [Abuf.pop, Build.assert_of hlt, ok_bind, hentry, ok_bind, Build.assert_of hsize, ok_bind, haddr,
    hval, h.poped]
  rfl

theorem Results.poped_succ (h : a.Results t xs k) :
    Results { a with poped := k + 1 } t xs (k + 1) :=
  ⟨⟨h.holds.pushed, h.holds.entry⟩, rfl⟩

end Results

end Abuf

end LibSei
