-- SUMMARY: The traversal barrier `tbar`: the counters of all threads, the snapshot a thread takes when it leaves a traversal and its check.
import LibSei.Machine.Exec

/-!
# The traversal barrier

Every thread has a counter that it increments on entering and on leaving a traversal, so the
counter is odd inside. When a thread leaves, it takes a snapshot of all counters; later it
asks whether all traversals that were running then are over. The check compares the
snapshot, of 64 bits, with a counter that has gone through an `int`.
-/

namespace LibSei

open Control

/-- `tbar_item_t`. -/
structure TbarItem where
  count : UInt64
  mark : UInt64
  deriving DecidableEq, Repr

/-- The global `struct tbar` with those of its threads. `items t` belongs to the thread whose
`me` is `t`; of the global items only the counters are kept, their marks are never set. -/
@[ext] structure Tbar where
  me : Nat
  maxThreads : Nat
  count : Nat → UInt64
  items : Nat → Nat → TbarItem

/-- The conversion to `int` of the assignment to `count` in `tbar_check`. -/
def intOfCount (c : UInt64) : Int32 := c.toUInt32.toInt32

/-- The conversion the comparison makes on its left operand, an `int`. -/
def uint64OfInt (x : Int32) : UInt64 := x.toInt64.toUInt64

theorem toNat_uint64OfInt (c : UInt64) : (uint64OfInt (intOfCount c)).toNat =
    if c.toNat % 2 ^ 32 < 2 ^ 31 then c.toNat % 2 ^ 32
    else c.toNat % 2 ^ 32 + (2 ^ 64 - 2 ^ 32) := by
  have hbits : (uint64OfInt (intOfCount c)).toNat =
      ((c.toBitVec.setWidth 32).signExtend 64).toNat := rfl
  rw [hbits, BitVec.toNat_signExtend, BitVec.msb_eq_decide]
  simp only [BitVec.toNat_setWidth, UInt64.toNat_toBitVec, Nat.reducePow, Nat.add_one_sub_one,
    decide_eq_true_eq, Nat.reduceSub]
  split <;> split <;> omega

namespace Tbar

/-- `tbar_init` without a global barrier. -/
def init (maxThreads : Nat) : Tbar := ⟨0, maxThreads, fun _ => 0, fun _ _ => ⟨0, 0⟩⟩

/-- `tbar_init` of a thread: it takes the next number. -/
def register (s : Tbar) : Tbar :=
  { s with me := s.me + 1, items := Function.update s.items s.me fun _ => ⟨0, 0⟩ }

/-- `tbar_enter`. -/
def enter (b : Build) (s : Tbar) (t : Nat) : Exec Tbar := do
  inBounds (t < s.maxThreads) "global->items"
  b.assert (s.count t % 2 = 0) "c % 2 == 0"
  return { s with count := Function.update s.count t (s.count t + 1) }

/-- `tbar_leave`. The loop copies the counters of the threads registered so far. -/
def leave (b : Build) (s : Tbar) (t : Nat) : Exec Tbar := do
  inBounds (t < s.maxThreads) "global->items"
  b.assert (s.count t % 2 = 1) "c % 2 == 1"
  let count := Function.update s.count t (s.count t + 1)
  inBounds (s.me ≤ s.maxThreads) "tbar->items"
  return { s with
    count := count
    items := Function.update s.items t fun i => if i < s.me then ⟨count i, 0⟩ else s.items t i }

/-- One iteration of `tbar_check`: an item is marked when its snapshot is even or the counter
has gone on. -/
def checkItem (count : UInt64) (it : TbarItem) : TbarItem :=
  if it.mark ≠ 0 then it
  else if it.count % 2 = 0 then { it with mark := 1 }
  else if uint64OfInt (intOfCount count) > it.count then { it with mark := 1 }
  else it

/-- `tbar_check`. An iteration works on its own item, and the answer is 1 if all end up
marked. -/
def check (s : Tbar) (t : Nat) : Exec (Bool × Tbar) := do
  inBounds (s.me ≤ s.maxThreads) "tbar->items"
  let items := fun i => if i < s.me then checkItem (s.count i) (s.items t i) else s.items t i
  return ((List.range s.me).all fun i => (items i).mark ≠ 0,
    { s with items := Function.update s.items t items })

/-! ## Threads using the barrier -/

inductive Event where
  | register
  | enter (t : Nat)
  | leave (t : Nat)
  | check (t : Nat)
  deriving DecidableEq, Repr

/-- One operation of a thread. A registered thread enters outside traversals and leaves inside
them. -/
inductive Step (b : Build) : Tbar → Event → Tbar → Prop where
  | register (s : Tbar) : Step b s .register s.register
  | enter {s t s'} (ht : t < s.me) (hout : s.count t % 2 = 0) (h : s.enter b t = .ok s') :
      Step b s (.enter t) s'
  | leave {s t s'} (ht : t < s.me) (hin : s.count t % 2 = 1) (h : s.leave b t = .ok s') :
      Step b s (.leave t) s'
  | check {s t r s'} (ht : t < s.me) (h : s.check t = .ok (r, s')) : Step b s (.check t) s'

/-- Operations of all threads in any order. -/
inductive Run (b : Build) : Tbar → List Event → Tbar → Prop where
  | nil (s : Tbar) : Run b s [] s
  | snoc {s es s' e s''} (h : Run b s es s') (hstep : Step b s' e s'') : Run b s (es ++ [e]) s''

section Lemmas

variable {b : Build} {s s' s'' : Tbar} {es es' : List Event} {e : Event} {t u n : Nat} {c : UInt64}

theorem Run.append (h : Run b s es s') (h' : Run b s' es' s'') : Run b s (es ++ es') s'' := by
  induction h' with
  | nil => rwa [List.append_nil]
  | snoc _ hstep ih =>
    rw [← List.append_assoc]
    exact .snoc ih hstep

theorem even_iff : c % 2 = 0 ↔ c.toNat % 2 = 0 := by
  rw [← UInt64.toNat_inj, UInt64.toNat_mod]
  rfl

theorem odd_iff : c % 2 = 1 ↔ c.toNat % 2 = 1 := by
  rw [← UInt64.toNat_inj, UInt64.toNat_mod]
  rfl

theorem toNat_add_one (c : UInt64) : (c + 1).toNat = (c.toNat + 1) % 2 ^ 64 := UInt64.toNat_add c 1

theorem even_add_one (h : c % 2 = 1) : (c + 1) % 2 = 0 := by
  rw [odd_iff] at h
  rw [even_iff, toNat_add_one]
  omega

theorem not_even_of_odd (h : c % 2 = 1) : ¬ c % 2 = 0 := by
  rw [odd_iff] at h
  rw [even_iff]
  omega

theorem even_or_odd (c : UInt64) : c % 2 = 0 ∨ c % 2 = 1 := by
  rw [even_iff, odd_iff]
  omega

end Lemmas

end Tbar

end LibSei
