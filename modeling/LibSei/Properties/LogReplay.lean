-- SUMMARY: What is pushed to an `abuf` is popped from it, along every run of pushes, pops, rewinds and cleans, as long as its capacity is an `int`.
import LibSei.Abuf.Capacity
import LibSei.Abuf.Record

/-!
# Replaying a log

A log is filled once and may be read many times. Each value lies in a slot of its entry that is
picked by the address, and nothing an earlier entry has left in the array may show. The array is
doubled when it is full, and its capacity is an `int`.
-/

namespace LibSei

open Memory Control

namespace Abuf

/-! ## Runs -/

/-- A value with the type and the address it is pushed with. -/
structure Pushed where
  ty : UIntTy
  addr : Nat
  value : Nat
  deriving DecidableEq, Repr

namespace Pushed

/-- The value in its type. -/
def val (x : Pushed) : Nat := x.value % 256 ^ x.ty.sizeof

/-- `ABUF_WVAL` of an entry for the value. -/
def word (x : Pushed) : AbufWord := AbufWord.zero.setWvax x.ty x.addr x.value

end Pushed

/-- A call on a log. -/
inductive LogCall where
  | push (x : Pushed)
  | popType (t : UIntTy) (addr : Nat)
  | pop
  | rewind
  | clean

/-- What has happened to a log: the pushes since it was last cleaned, and the number of pops since
it was last rewound or cleaned. -/
structure Past where
  pushes : List Pushed
  pops : Nat

namespace LogCall

/-- A call with what it returns. -/
def run (b : Build) : LogCall → Abuf → Exec (List Nat × Abuf)
  | .push x, a => do
      let a ← a.pushType x.ty x.addr x.value
      return ([], a)
  | .popType t addr, a => do
      let (v, a) ← a.popType b t addr
      return ([v], a)
  | .pop, a => do
      let (addr, v, a) ← a.pop b
      return ([addr, v], a)
  | .rewind, a => return ([], a.rewind)
  | .clean, a => return ([], a.clean)

def after : LogCall → Past → Past
  | .push x, g => { g with pushes := g.pushes ++ [x] }
  | .popType _ _, g | .pop, g => { g with pops := g.pops + 1 }
  | .rewind, g => { g with pops := 0 }
  | .clean, _ => ⟨[], 0⟩

/-- What a call has to return. A pop is only asked for its value with the type and the address of
the push it replays. -/
inductive Returns (g : Past) : LogCall → List Nat → Prop where
  | push (x : Pushed) : Returns g (.push x) []
  | popType (x : Pushed) (h : g.pushes[g.pops]? = some x) : Returns g (.popType x.ty x.addr) [x.val]
  | pop (x : Pushed) (h : g.pushes[g.pops]? = some x) (hty : x.ty = .uint64) :
      Returns g .pop [x.addr, x.val]
  | rewind : Returns g .rewind []
  | clean : Returns g .clean []

end LogCall

/-- The log agrees with its past: its size is the number of pushes less the number of pops, the
entries fit into the array, and the 64-bit word of an entry is determined by what was pushed. -/
structure Agrees (a : Abuf) (g : Past) : Prop where
  size : a.size = (g.pushes.length : Int) - g.pops
  room : a.pushed ≤ a.maxSize
  word : ∀ i x, g.pushes[i]? = some x → (a.buf i).wvalue = x.word

/-- Along the calls the log agrees with its past, and every call returns what it has to. -/
def Replays (b : Build) : List LogCall → Past → Abuf → Prop
  | [], g, a => a.Agrees g
  | c :: cs, g, a => a.Agrees g ∧ (∀ rs, c.Returns g rs → ∃ a', c.run b a = .ok (rs, a')) ∧
      ∀ rs a', c.run b a = .ok (rs, a') → Replays b cs (c.after g) a'

/-- Along the calls nothing is pushed to a log that has `n` entries. -/
def Below (b : Build) (n : Nat) : List LogCall → Abuf → Prop
  | [], _ => True
  | c :: cs, a => (∀ x, c = .push x → a.pushed < n) ∧
      ∀ rs a', c.run b a = .ok (rs, a') → Below b n cs a'

/-- What is kept by every call on a log that started with `c` entries. -/
structure Tracks (c : Nat) (g : Past) (a : Abuf) : Prop where
  pushed : a.pushed = g.pushes.length
  poped : a.poped = g.pops
  entry : ∀ i x, g.pushes[i]? = some x →
    (a.buf i).addr = x.addr ∧ (a.buf i).size = x.ty.sizeof ∧ (a.buf i).wvalue = x.word
  grown : Grown c a.maxSize

section Replay

variable {b : Build} {c addr v : Nat} {g : Past} {a a' : Abuf} {x : Pushed} {t : UIntTy}
  {cs : List LogCall}

theorem Pushed.wvax_word (x : Pushed) : x.word.wvax x.ty x.addr = x.val :=
  AbufWord.wvax_setWvax _ _ _ _

/-- Nothing of the entry that is overwritten shows: small types clear the word, and `uint64_t`
fills it. -/
theorem fill_wvalue (e : AbufEntry) (x : Pushed) :
    (e.fill x.ty x.addr x.value).wvalue = x.word := by
  rw [AbufEntry.fill, Pushed.word]
  by_cases hsize : x.ty.sizeof ≠ 8
  · simp only [if_pos hsize]
  · have hslot := AbufWord.slot_add_sizeof_le x.addr x.ty
    simp only [if_neg hsize]
    funext j
    have hj : AbufWord.slot x.addr x.ty ≤ j ∧ j < AbufWord.slot x.addr x.ty + x.ty.sizeof := by
      have := j.isLt
      omega
    rw [AbufWord.setWvax, AbufWord.setWvax, if_pos hj, if_pos hj]

theorem Tracks.agrees (h : Tracks c g a) : a.Agrees g where
  size := by rw [Abuf.size, h.pushed, h.poped]
  room := a.pushed_le
  word i x hx := (h.entry i x hx).2.2

theorem tracks_init (hc : 0 < c) (hlt : c < 2 ^ 31) : Tracks c ⟨[], 0⟩ (Abuf.init c hc) where
  pushed := rfl
  poped := rfl
  entry i x hx := by simp at hx
  grown := .refl hlt

/-- A push succeeds until the greatest capacity is filled. -/
theorem Tracks.pushType_iff (h : Tracks c g a) (hc : 0 < c) (hlt : c < 2 ^ 31) :
    (∃ a', a.pushType t addr v = .ok a') ↔ a.pushed < limit c := by
  simp only [pushType_eq_ok, exists_and_left, exists_eq, and_true]
  exact h.grown.hasRoom_iff hc hlt

theorem Tracks.push (h : Tracks c g a) (hrun : a.pushType x.ty x.addr x.value = .ok a') :
    Tracks c ((LogCall.push x).after g) a' := by
  obtain ⟨hroom, rfl⟩ := pushType_eq_ok.mp hrun
  refine ⟨?_, h.poped, fun i y hy => ?_, ?_⟩
  · show a.pushed + 1 = (g.pushes ++ [x]).length
    rw [h.pushed, List.length_append, List.length_singleton]
  · have hy : (g.pushes ++ [x])[i]? = some y := hy
    rcases Nat.lt_or_ge i g.pushes.length with hi | hi
    · rw [List.getElem?_append_left hi] at hy
      have hne : i ≠ a.pushed := by
        rw [h.pushed]
        omega
      rw [push_buf_of_ne _ _ _ _ hne]
      exact h.entry i y hy
    · rw [List.getElem?_append_right hi, List.getElem?_singleton] at hy
      split at hy
      · next hlast =>
        cases hy
        have hi : i = a.pushed := by
          rw [h.pushed]
          omega
        rw [hi, push_buf_self]
        exact ⟨rfl, rfl, fill_wvalue _ x⟩
      · cases hy
  · exact h.grown.push hroom

/-- Only the number of pops changes when the log is read. -/
theorem Tracks.setPoped (h : Tracks c g a) (n : Nat) :
    Tracks c { g with pops := n } { a with poped := n } :=
  ⟨h.pushed, rfl, h.entry, h.grown⟩

theorem Tracks.clean (h : Tracks c g a) : Tracks c ⟨[], 0⟩ a.clean :=
  ⟨rfl, rfl, fun i x hx => by simp at hx, h.grown⟩

/-- Every call that returns keeps what is kept. -/
theorem Tracks.run {call : LogCall} {rs : List Nat} (h : Tracks c g a)
    (hrun : call.run b a = .ok (rs, a')) : Tracks c (call.after g) a' := by
  cases call with
  | push x =>
    simp only [LogCall.run, bind_eq_ok, pure_eq_ok, Except.ok.injEq, Prod.mk.injEq] at hrun
    obtain ⟨_, hpush, -, rfl⟩ := hrun
    exact h.push hpush
  | popType t addr =>
    simp only [LogCall.run, Abuf.popType, bind_eq_ok, pure_eq_ok, Except.ok.injEq,
      Prod.mk.injEq] at hrun
    obtain ⟨_, ⟨_, _, _, _, _, _, _, _, rfl⟩, -, rfl⟩ := hrun
    rw [LogCall.after, ← h.poped]
    exact h.setPoped (a.poped + 1)
  | pop =>
    simp only [LogCall.run, Abuf.pop, bind_eq_ok, pure_eq_ok, Except.ok.injEq, Prod.mk.injEq] at hrun
    obtain ⟨_, ⟨_, _, _, _, _, _, rfl⟩, -, rfl⟩ := hrun
    rw [LogCall.after, ← h.poped]
    exact h.setPoped (a.poped + 1)
  | rewind =>
    cases hrun
    exact h.setPoped 0
  | clean =>
    cases hrun
    exact h.clean

/-- The entry that is read next. -/
theorem Tracks.next (h : Tracks c g a) (hx : g.pushes[g.pops]? = some x) :
    a.poped < a.pushed ∧ ∃ e, a.entryAt a.poped = .ok e ∧ e.addr = x.addr ∧
      e.size = x.ty.sizeof ∧ e.wvalue = x.word := by
  obtain ⟨hlt, -⟩ := List.getElem?_eq_some_iff.mp hx
  have hroom := a.pushed_le
  have hpushed := h.pushed
  have hpoped := h.poped
  refine ⟨by omega, a.buf g.pops, ?_, h.entry g.pops x hx⟩
  rw [hpoped, entryAt, inBounds_of (by omega)]
  rfl

/-- A pop with the type and the address of the push returns its value. -/
theorem Tracks.popType (h : Tracks c g a) (hx : g.pushes[g.pops]? = some x) :
    ∃ a', a.popType b x.ty x.addr = .ok (x.val, a') := by
  obtain ⟨hlt, e, hentry, haddr, hsize, hword⟩ := h.next hx
  refine ⟨{ a with poped := a.poped + 1 }, ?_⟩
  rw [Abuf.popType, Build.assert_of hlt, ok_bind, hentry, ok_bind, failIfn_of haddr, ok_bind,
    Build.assert_of hsize, ok_bind, hword, x.wvax_word]
  rfl

theorem Tracks.pop (h : Tracks c g a) (hx : g.pushes[g.pops]? = some x) (hty : x.ty = .uint64) :
    ∃ a', a.pop b = .ok (x.addr, x.val, a') := by
  obtain ⟨hlt, e, hentry, haddr, hsize, hword⟩ := h.next hx
  have hval : e.wvax .uint64 = x.val := by
    rw [AbufEntry.wvax, hword, haddr, ← hty, x.wvax_word]
  refine ⟨{ a with poped := a.poped + 1 }, ?_⟩
  rw [Abuf.pop, Build.assert_of hlt, ok_bind, hentry, ok_bind, Build.assert_of (hty ▸ hsize), ok_bind,
    haddr, hval]
  rfl

/-- Apart from pushes to a full log, every call returns what it has to. -/
theorem Tracks.returns {call : LogCall} {rs : List Nat} (h : Tracks c g a) (hc : 0 < c)
    (hlt : c < 2 ^ 31) (hpush : ∀ x, call = .push x → a.pushed < limit c)
    (hrs : call.Returns g rs) : ∃ a', call.run b a = .ok (rs, a') := by
  cases hrs with
  | push x =>
    obtain ⟨a', hrun⟩ := (h.pushType_iff hc hlt).mpr (hpush x rfl)
    exact ⟨a', by rw [LogCall.run, hrun]; rfl⟩
  | popType x hx =>
    obtain ⟨a', hrun⟩ := h.popType (b := b) hx
    exact ⟨a', by rw [LogCall.run, hrun]; rfl⟩
  | pop x hx hty =>
    obtain ⟨a', hrun⟩ := h.pop (b := b) hx hty
    exact ⟨a', by rw [LogCall.run, hrun]; rfl⟩
  | rewind => exact ⟨_, rfl⟩
  | clean => exact ⟨_, rfl⟩

theorem Tracks.replays_iff_below (h : Tracks c g a) (hc : 0 < c) (hlt : c < 2 ^ 31) :
    Replays b cs g a ↔ Below b (limit c) cs a := by
  induction cs generalizing g a with
  | nil => exact ⟨fun _ => trivial, fun _ => h.agrees⟩
  | cons call cs ih =>
    constructor
    · rintro ⟨-, hreturns, hrest⟩
      refine ⟨fun x hx => ?_, fun rs a' hrun => (ih (h.run hrun)).mp (hrest rs a' hrun)⟩
      subst hx
      obtain ⟨a', hrun⟩ := hreturns [] (.push x)
      simp only [LogCall.run, bind_eq_ok] at hrun
      obtain ⟨a1, hpush, -⟩ := hrun
      exact (h.pushType_iff hc hlt).mp ⟨a1, hpush⟩
    · rintro ⟨hpush, hrest⟩
      exact ⟨h.agrees, fun rs hrs => h.returns hc hlt hpush hrs,
        fun rs a' hrun => (ih (h.run hrun)).mpr (hrest rs a' hrun)⟩

/-- A run of few calls does not fill the log. -/
theorem Tracks.below {n : Nat} (h : Tracks c g a) (hn : a.pushed + cs.length ≤ n) :
    Below b n cs a := by
  induction cs generalizing g a with
  | nil => trivial
  | cons call cs ih =>
    rw [List.length_cons] at hn
    refine ⟨fun _ _ => by omega, fun rs a' hrun => ih (h.run hrun) ?_⟩
    have hpushed : a'.pushed ≤ a.pushed + 1 := by
      rw [(h.run hrun).pushed, h.pushed]
      cases call <;> simp [LogCall.after]
    omega

end Replay

/-- A log of any initial capacity replays along every run of calls exactly if it never has to hold
more entries than the greatest capacity below `2 ^ 31` that its initial one comes to by doubling. -/
theorem replays_iff (b : Build) (c : Nat) (hc : 0 < c) (hlt : c < 2 ^ 31) (cs : List LogCall) :
    Replays b cs ⟨[], 0⟩ (Abuf.init c hc) ↔ Below b (limit c) cs (Abuf.init c hc) :=
  (tracks_init hc hlt).replays_iff_below hc hlt

/-- Two pushes to a log of one entry, the second with an unaligned address, read twice. -/
def twice : List LogCall :=
  [.push ⟨.uint64, 15, 0xBABEBABEBABEBABE⟩, .push ⟨.uint16, 3, 0xBBAA⟩, .pop, .rewind, .pop,
    .popType .uint16 3, .clean]

theorem replays_twice : Replays (.twoWay false false) twice ⟨[], 0⟩ (Abuf.init 1 (by decide)) := by
  have htracks := tracks_init (c := 1) (by decide) (by decide)
  have hroom : (Abuf.init 1 (by decide)).pushed + twice.length ≤ limit 1 := by
    rw [limit_one]
    decide
  exact (replays_iff (.twoWay false false) 1 (by decide) (by decide) twice).mpr
    (htracks.below hroom)

/-! ## The overflow -/

/-- Pushing one value `k` times. -/
theorem Tracks.pushMany {b : Build} {c k : Nat} {g : Past} {a : Abuf} {x : Pushed}
    (h : Tracks c g a) (hc : 0 < c) (hlt : c < 2 ^ 31) (hk : a.pushed + k ≤ limit c) :
    ∃ rs g' a', runEach (LogCall.run b) (List.replicate k (.push x)) a = .ok (rs, a') ∧
      Tracks c g' a' ∧ a'.pushed = a.pushed + k := by
  induction k generalizing g a with
  | zero => exact ⟨[], g, a, rfl, h, rfl⟩
  | succ k ih =>
    obtain ⟨a1, hrun⟩ := h.returns (b := b) hc hlt (fun _ _ => by omega) (.push x)
    have h1 := h.run hrun
    have hpushed : a1.pushed = a.pushed + 1 := by
      rw [h1.pushed, h.pushed, LogCall.after, List.length_append, List.length_singleton]
    obtain ⟨rs, g', a', hrest, h', hpushed'⟩ := ih h1 (by omega)
    exact ⟨_, g', a', runEach_cons_of hrun hrest, h', by omega⟩

/-- With `2 ^ 30` entries in it, a log of the initial capacity 1 takes no more. -/
theorem replay_overflows : ∃ rs a,
    runEach (LogCall.run (.twoWay false false)) (List.replicate (2 ^ 30) (.push ⟨.uint8, 0, 7⟩))
      (Abuf.init 1 (by decide)) = .ok (rs, a) ∧
    a.pushType .uint8 0 7 = .error (.fail "no space left" []) := by
  have htracks := tracks_init (c := 1) (by decide) (by decide)
  obtain ⟨rs, g', a, hrun, h, hpushed⟩ := htracks.pushMany (b := .twoWay false false) (k := 2 ^ 30)
    (x := ⟨.uint8, 0, 7⟩) (by decide) (by decide) (by rw [limit_one]; exact le_refl _)
  refine ⟨rs, a, hrun, ?_⟩
  rw [pushType_eq, if_neg]
  rw [h.grown.hasRoom_iff (by decide) (by decide), limit_one, hpushed]
  exact Nat.not_lt.mpr (Nat.le_add_left _ _)

end Abuf

end LibSei
