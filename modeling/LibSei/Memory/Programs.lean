-- SUMMARY: Code as a tree of sized memory accesses: its effect on plain memory, its loops, and running it on any other store.
import LibSei.Control.Loop
import LibSei.Memory.Writes

/-!
# Programs that access memory

The same code can run on plain memory, or compiled so that its accesses become calls of
a runtime. Here the code is a tree of its accesses. On plain memory it yields a value and the
list of its writes; on a runtime it is run access by access. A runtime that simulates plain
memory under a relation gives every program the same value and the same writes, as far as it
has room for them.
-/

namespace Memory

/-- Types of accesses, with their width in bytes. -/
class Width (τ : Type) where
  sizeof : τ → Nat

open Width (sizeof)

/-- Code that returns an `α` and accesses memory with the types `τ`. At a `cut` the run is
followed no further. -/
inductive Prog (τ α : Type) where
  | ret (a : α)
  | read (t : τ) (addr : Nat) (k : Nat → Prog τ α)
  | write (t : τ) (addr val : Nat) (k : Prog τ α)
  | cut

namespace Prog

variable {τ α β σ ε : Type}

def bind : Prog τ α → (α → Prog τ β) → Prog τ β
  | ret a, f => f a
  | read t addr k, f => read t addr fun v => (k v).bind f
  | write t addr val k, f => write t addr val (k.bind f)
  | cut, _ => cut

instance : Monad (Prog τ) where
  pure := ret
  bind := bind

/-- Read a value. -/
def get (t : τ) (addr : Nat) : Prog τ Nat := read t addr ret

/-- Write a value. -/
def put (t : τ) (addr val : Nat) : Prog τ Unit := write t addr val (ret ())

/-- Read the value at `src` and write it at `dst`. -/
def copy (t : τ) (dst src : Nat) : Prog τ Unit := do
  let v ← get t src
  put t dst v

/-- Write a sequence of values, each given by its type, address and value. -/
def puts : List (τ × Nat × Nat) → Prog τ Unit
  | [] => ret ()
  | w :: ws => write w.1 w.2.1 w.2.2 (puts ws)

/-! ## Loops -/

/-- `while (c) body`, for at most `fuel` tests of the condition. -/
def whileLoop (c : σ → Bool) (body : σ → Prog τ σ) : Nat → σ → Prog τ σ
  | 0, _ => cut
  | fuel + 1, s =>
      if c s then do
        let s ← body s
        whileLoop c body fuel s
      else ret s

/-- `do body while (c)`, for at most `fuel` iterations. -/
def doWhile (body : σ → Prog τ σ) (c : σ → Bool) : Nat → σ → Prog τ σ
  | 0, _ => cut
  | fuel + 1, s => do
      let s ← body s
      if c s then doWhile body c fuel s else ret s

/-- `n` executions of `body`. -/
def repeatTimes (body : σ → Prog τ σ) : Nat → σ → Prog τ σ
  | 0, s => ret s
  | n + 1, s => do
      let s ← body s
      repeatTimes body n s

/-! ## On plain memory -/

section Plain

variable [Width τ]

/-- The value returned on memory `m`, if the program comes to its end. -/
def eval : Prog τ α → Mem → Option α
  | ret a, _ => some a
  | read t addr k, m => (k (load m addr (sizeof t))).eval m
  | write t addr val k, m => k.eval (store m addr (sizeof t) val)
  | cut, _ => none

/-- The writes made on memory `m`, oldest first. -/
def writes : Prog τ α → Mem → List Write
  | ret _, _ => []
  | read t addr k, m => (k (load m addr (sizeof t))).writes m
  | write t addr val k, m =>
      Write.ofNat addr (sizeof t) val :: k.writes (store m addr (sizeof t) val)
  | cut, _ => []

/-- The program comes to its end with `a`, having made the writes `ws`. -/
structure Runs (p : Prog τ α) (m : Mem) (a : α) (ws : List Write) : Prop where
  eval : p.eval m = some a
  writes : p.writes m = ws

variable {p : Prog τ α} {f : α → Prog τ β} {m : Mem} {a : α} {r : β} {ws vs : List Write}

theorem runs_ret (a : α) (m : Mem) : Runs (ret a : Prog τ α) m a [] := ⟨rfl, rfl⟩

theorem eval_bind (p : Prog τ α) (f : α → Prog τ β) (m : Mem) :
    (p >>= f).eval m = (p.eval m).bind fun a => (f a).eval (runWrites (p.writes m) m) := by
  induction p generalizing m with
  | ret a => rfl
  | read t addr k ih => exact ih _ m
  | write t addr val k ih =>
    have hmem : runWrites ((write t addr val k).writes m) m =
        runWrites (k.writes (store m addr (sizeof t) val)) (store m addr (sizeof t) val) := by
      rw [writes, runWrites_cons, Write.apply_ofNat]
    rw [hmem]
    exact ih _
  | cut => rfl

theorem Runs.bind (hp : Runs p m a ws) (hf : Runs (f a) (runWrites ws m) r vs) :
    Runs (p >>= f) m r (ws ++ vs) := by
  induction p generalizing m ws with
  | ret b =>
    obtain ⟨heval, rfl⟩ := hp
    cases heval
    exact hf
  | read t addr k ih =>
    have := ih _ (m := m) ⟨hp.eval, hp.writes⟩ hf
    exact ⟨this.eval, this.writes⟩
  | write t addr val k ih =>
    obtain ⟨heval, rfl⟩ := hp
    rw [Prog.writes, runWrites_cons, Write.apply_ofNat] at hf
    have hrest := ih (m := store m addr (sizeof t) val) ⟨heval, rfl⟩ hf
    exact ⟨hrest.eval, congrArg (Write.ofNat addr (sizeof t) val :: ·) hrest.writes⟩
  | cut => cases hp.eval

/-- Returning another value at the end. -/
theorem Runs.bind_ret (hp : Runs p m a ws) (r : β) : Runs (p >>= fun _ => ret r) m r ws := by
  rw [← List.append_nil ws]
  exact hp.bind (runs_ret r _)

theorem runs_get (t : τ) (addr : Nat) (m : Mem) : Runs (get t addr) m (load m addr (sizeof t)) [] :=
  ⟨rfl, rfl⟩

theorem runs_put (t : τ) (addr val : Nat) (m : Mem) :
    Runs (put t addr val) m () [Write.ofNat addr (sizeof t) val] := ⟨rfl, rfl⟩

section Loops

variable {c : σ → Bool} {body : σ → Prog τ σ} {s s1 s2 : σ} {fuel n : Nat}

theorem runs_whileLoop_exit (hc : c s = false) : Runs (whileLoop c body (fuel + 1) s) m s [] := by
  rw [whileLoop, if_neg (by simp [hc])]
  exact runs_ret s m

theorem Runs.doWhile_exit (hbody : Runs (body s) m s1 ws) (hc : c s1 = false) :
    Runs (doWhile body c (fuel + 1) s) m s1 ws := by
  rw [← List.append_nil ws]
  refine hbody.bind ?_
  rw [if_neg (by simp [hc])]
  exact runs_ret s1 _

theorem Runs.doWhile (hbody : Runs (body s) m s1 ws) (hc : c s1 = true)
    (hrest : Runs (doWhile body c fuel s1) (runWrites ws m) s2 vs) :
    Runs (Prog.doWhile body c (fuel + 1) s) m s2 (ws ++ vs) := by
  refine hbody.bind ?_
  rw [if_pos hc]
  exact hrest

theorem Runs.repeatTimes (hbody : Runs (body s) m s1 ws)
    (hrest : Runs (repeatTimes body n s1) (runWrites ws m) s2 vs) :
    Runs (Prog.repeatTimes body (n + 1) s) m s2 (ws ++ vs) := hbody.bind hrest

end Loops

end Plain

/-! ## On a runtime -/

/-- What accesses do to a state, for code that is compiled into calls. -/
structure Runtime (τ ε σ : Type) where
  read : τ → Nat → σ → Except ε Nat
  write : τ → Nat → Nat → σ → Except ε σ

/-- Run a program access by access. -/
def run (rt : Runtime τ ε σ) : Prog τ α → σ → Except ε (Option α × σ)
  | ret a, s => .ok (some a, s)
  | read t addr k, s => do
      let v ← rt.read t addr s
      (k v).run rt s
  | write t addr val k, s => do
      let s ← rt.write t addr val s
      k.run rt s
  | cut, s => .ok (none, s)

section Runtime

variable [Width τ] {rt : Runtime τ ε σ} {m : Mem} {R : List Write → σ → Prop} {ws : List Write}
  {s s' : σ} {r : Option α}

/-- Under the relation `R` between the writes made so far and the state, the runtime reads
what plain memory holds. It takes `n` of the writes that `counts` selects, and stops with `e` at
the next one. -/
structure Simulates (rt : Runtime τ ε σ) (m : Mem) (counts : Write → Bool) (n : Nat) (e : ε)
    (R : List Write → σ → Prop) : Prop where
  read : ∀ ws s t addr, R ws s → rt.read t addr s = .ok (load (runWrites ws m) addr (sizeof t))
  write : ∀ ws s t addr val, R ws s →
    (ws ++ [Write.ofNat addr (sizeof t) val]).countP counts ≤ n →
    ∃ s', rt.write t addr val s = .ok s' ∧ R (ws ++ [Write.ofNat addr (sizeof t) val]) s'
  full : ∀ ws s t addr val, R ws s → ws.countP counts ≤ n →
    n < (ws ++ [Write.ofNat addr (sizeof t) val]).countP counts → rt.write t addr val s = .error e

theorem Simulates.run {counts : Write → Bool} {n : Nat} {e : ε} (h : Simulates rt m counts n e R)
    (p : Prog τ α) (hs : R ws s) (hws : ws.countP counts ≤ n) :
    if (ws ++ p.writes (runWrites ws m)).countP counts ≤ n then
      ∃ s', p.run rt s = .ok (p.eval (runWrites ws m), s') ∧
        R (ws ++ p.writes (runWrites ws m)) s'
    else p.run rt s = .error e := by
  induction p generalizing ws s with
  | ret a =>
    rw [writes, List.append_nil, if_pos hws]
    exact ⟨s, rfl, hs⟩
  | read t addr k ih =>
    rw [Prog.run, h.read ws s t addr hs, Control.ok_bind]
    exact ih (load (runWrites ws m) addr (sizeof t)) hs hws
  | write t addr val k ih =>
    have hmem : runWrites (ws ++ [Write.ofNat addr (sizeof t) val]) m =
        store (runWrites ws m) addr (sizeof t) val := by
      rw [runWrites_append, runWrites_cons, runWrites_nil, Write.apply_ofNat]
    have hsplit : ws ++ (Prog.write t addr val k).writes (runWrites ws m) =
        ws ++ [Write.ofNat addr (sizeof t) val] ++
          k.writes (store (runWrites ws m) addr (sizeof t) val) := by
      rw [writes, List.append_assoc]
      rfl
    rw [hsplit, Prog.run]
    rcases Nat.lt_or_ge n ((ws ++ [Write.ofNat addr (sizeof t) val]).countP counts) with hfull | hroom
    · -- the first write that does not fit ends the run
      rw [if_neg, h.full ws s t addr val hs hws hfull]
      · rfl
      · rw [List.countP_append]
        omega
    · obtain ⟨s1, hwrite, hR⟩ := h.write ws s t addr val hs hroom
      rw [hwrite, Control.ok_bind]
      have hrest := ih hR hroom
      rw [hmem] at hrest
      exact hrest
  | cut =>
    rw [writes, List.append_nil, if_pos hws]
    exact ⟨s, rfl, hs⟩

/-- A run from a state that stands for the initial memory. -/
theorem Simulates.run_start {counts : Write → Bool} {n : Nat} {e : ε}
    (h : Simulates rt m counts n e R) (p : Prog τ α) (hs : R [] s) :
    if (p.writes m).countP counts ≤ n then
      ∃ s', p.run rt s = .ok (p.eval m, s') ∧ R (p.writes m) s'
    else p.run rt s = .error e := h.run p hs (Nat.zero_le n)

/-- Every read on memory `m` satisfies `Qr` and every write `Qw`. -/
def Accesses (Qr Qw : τ → Nat → Prop) : Prog τ α → Mem → Prop
  | ret _, _ => True
  | read t addr k, m => Qr t addr ∧ (k (load m addr (sizeof t))).Accesses Qr Qw m
  | write t addr val k, m => Qw t addr ∧ k.Accesses Qr Qw (store m addr (sizeof t) val)
  | cut, _ => True

theorem accesses_of_writes {Qw : τ → Nat → Prop} {Q : Write → Prop} {p : Prog τ α}
    (h : ∀ t addr val, Q (Write.ofNat addr (sizeof t) val) → Qw t addr)
    (hp : ∀ w ∈ p.writes m, Q w) : p.Accesses (fun _ _ => True) Qw m := by
  induction p generalizing m with
  | ret a => trivial
  | read t addr k ih => exact ⟨trivial, ih _ hp⟩
  | write t addr val k ih =>
    rw [writes, List.forall_mem_cons] at hp
    exact ⟨h t addr val hp.1, ih hp.2⟩
  | cut => trivial

/-- As `Simulates`, for a runtime that may stop at a write, and for accesses of some kind. -/
structure Tracks (rt : Runtime τ ε σ) (m : Mem) (Qr Qw : τ → Nat → Prop)
    (R : List Write → σ → Prop) : Prop where
  read : ∀ ws s t addr, R ws s → Qr t addr →
    rt.read t addr s = .ok (load (runWrites ws m) addr (sizeof t))
  write : ∀ ws s s' t addr val, R ws s → Qw t addr → rt.write t addr val s = .ok s' →
    R (ws ++ [Write.ofNat addr (sizeof t) val]) s'

theorem Tracks.run {Qr Qw : τ → Nat → Prop} (h : Tracks rt m Qr Qw R) {p : Prog τ α} (hs : R ws s)
    (hQ : p.Accesses Qr Qw (runWrites ws m)) (hrun : p.run rt s = .ok (r, s')) :
    r = p.eval (runWrites ws m) ∧ R (ws ++ p.writes (runWrites ws m)) s' := by
  induction p generalizing ws s with
  | ret a =>
    cases hrun
    exact ⟨rfl, by simpa [writes] using hs⟩
  | read t addr k ih =>
    rw [Prog.run, h.read ws s t addr hs hQ.1, Control.ok_bind] at hrun
    exact ih _ hs hQ.2 hrun
  | write t addr val k ih =>
    rw [Prog.run, Control.bind_eq_ok] at hrun
    obtain ⟨s1, hwrite, hrun⟩ := hrun
    have hmem : runWrites (ws ++ [Write.ofNat addr (sizeof t) val]) m =
        store (runWrites ws m) addr (sizeof t) val := by
      rw [runWrites_append, runWrites_cons, runWrites_nil, Write.apply_ofNat]
    have hrest := ih (h.write ws s s1 t addr val hs hQ.1 hwrite) (hmem ▸ hQ.2) hrun
    rw [hmem, List.append_assoc] at hrest
    exact hrest
  | cut =>
    cases hrun
    exact ⟨rfl, by simpa [writes] using hs⟩

/-! ## Writes made on a runtime -/

/-- The writes a program makes on a runtime, up to where it stops. -/
def issued (rt : Runtime τ ε σ) : Prog τ α → σ → List Write
  | ret _, _ => []
  | read t addr k, s => (rt.read t addr s).toOption.elim [] fun v => (k v).issued rt s
  | write t addr val k, s =>
      Write.ofNat addr (sizeof t) val :: (rt.write t addr val s).toOption.elim [] (k.issued rt)
  | cut, _ => []

/-- The writes of a sequence. -/
def stores (ws : List (τ × Nat × Nat)) : List Write :=
  ws.map fun w => Write.ofNat w.2.1 (sizeof w.1) w.2.2

theorem issued_puts {ws : List (τ × Nat × Nat)} {r : Option Unit}
    (hrun : (puts ws).run rt s = .ok (r, s')) : (puts ws).issued rt s = stores ws := by
  induction ws generalizing s with
  | nil => rfl
  | cons w ws ih =>
    rw [puts, Prog.run, Control.bind_eq_ok] at hrun
    obtain ⟨s1, hwrite, hrun⟩ := hrun
    rw [puts, issued, hwrite]
    exact congrArg (_ :: ·) (ih hrun)

/-- The writes of kind `Q` keep a relation between the writes made so far and the state. -/
def Keeps (rt : Runtime τ ε σ) (Q : Write → Prop) (R : List Write → σ → Prop) : Prop :=
  ∀ ws s s' t addr val, R ws s → Q (Write.ofNat addr (sizeof t) val) →
    rt.write t addr val s = .ok s' → R (ws ++ [Write.ofNat addr (sizeof t) val]) s'

theorem Keeps.run {Q : Write → Prop} (h : Keeps rt Q R) {p : Prog τ α} (hs : R ws s)
    (hQ : ∀ w ∈ p.issued rt s, Q w) (hrun : p.run rt s = .ok (r, s')) :
    R (ws ++ p.issued rt s) s' := by
  induction p generalizing ws s with
  | ret a =>
    cases hrun
    simpa [issued] using hs
  | read t addr k ih =>
    rw [Prog.run, Control.bind_eq_ok] at hrun
    obtain ⟨v, hread, hrun⟩ := hrun
    have hissued : (read t addr k).issued rt s = (k v).issued rt s := by rw [issued, hread]; rfl
    rw [hissued] at hQ ⊢
    exact ih v hs hQ hrun
  | write t addr val k ih =>
    rw [Prog.run, Control.bind_eq_ok] at hrun
    obtain ⟨s1, hwrite, hrun⟩ := hrun
    have hissued : (write t addr val k).issued rt s =
        Write.ofNat addr (sizeof t) val :: k.issued rt s1 := by rw [issued, hwrite]; rfl
    rw [hissued] at hQ ⊢
    rw [List.forall_mem_cons] at hQ
    have hrest := ih (h ws s s1 t addr val hs hQ.1 hwrite) hQ.2 hrun
    rwa [List.append_assoc] at hrest
  | cut =>
    cases hrun
    simpa [issued] using hs

/-- Two runs whose reads agree as long as the same writes were made make the same writes. -/
theorem issued_congr {Q : Write → Prop} {R' : List Write → σ → Prop} {r' : Option α} {s1 s1' : σ}
    (h : Keeps rt Q R) (h' : Keeps rt Q R')
    (hread : ∀ ws s s1 t addr, R ws s → R' ws s1 → rt.read t addr s1 = rt.read t addr s)
    {p : Prog τ α} (hs : R ws s) (hs1 : R' ws s1) (hQ : ∀ w ∈ p.issued rt s, Q w)
    (hrun : p.run rt s = .ok (r, s')) (hrun1 : p.run rt s1 = .ok (r', s1')) :
    p.issued rt s1 = p.issued rt s := by
  induction p generalizing ws s s1 with
  | ret a => rfl
  | read t addr k ih =>
    rw [Prog.run, Control.bind_eq_ok] at hrun hrun1
    obtain ⟨v, hv, hrun⟩ := hrun
    obtain ⟨v1, hv1, hrun1⟩ := hrun1
    obtain rfl : v1 = v := by
      rw [hread ws s s1 t addr hs hs1, hv] at hv1
      exact (Except.ok.inj hv1).symm
    rw [issued, hv] at hQ
    rw [issued, issued, hv, hv1]
    exact ih v1 hs hs1 hQ hrun hrun1
  | write t addr val k ih =>
    rw [Prog.run, Control.bind_eq_ok] at hrun hrun1
    obtain ⟨s2, hwrite, hrun⟩ := hrun
    obtain ⟨s3, hwrite1, hrun1⟩ := hrun1
    rw [issued, hwrite, List.forall_mem_cons] at hQ
    rw [issued, issued, hwrite, hwrite1]
    exact congrArg (_ :: ·) (ih (h ws s s2 t addr val hs hQ.1 hwrite)
      (h' ws s1 s3 t addr val hs1 hQ.1 hwrite1) hQ.2 hrun hrun1)
  | cut => rfl

end Runtime

end Prog

end Memory
