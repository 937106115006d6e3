-- SUMMARY: The waitress `wts`: system calls put aside per phase, compared across the phases and executed once.
import LibSei.Machine.Env

/-!
# Deferred system calls

A wrapped system call is not made inside a traversal but put aside with its
arguments. At commit the calls of all phases are compared and those of phase 0
are made. Unlike the other structures the waitress does not know the runtime
redundancy level: its loops run over all phases of the build.
-/

namespace LibSei

open Memory Control

/-- `SC_MAX_CALLS`. -/
def scMaxCalls : Nat := 100

/-- `WTS_MAX_ARG`. -/
def wtsMaxArg : Nat := 32

/-- `wts_item_t`. Each field holds one value per phase; a null `func` is 0. -/
@[ext] structure WtsItem where
  func : Nat → Nat
  anum : Nat → Nat
  args : Nat → Nat → Nat

/-- An item cleared by `bzero`. -/
def WtsItem.zero : WtsItem := ⟨fun _ => 0, fun _ => 0, fun _ _ => 0⟩

/-- `struct wts`. -/
@[ext] structure Wts where
  maxItems : Nat
  nitems : Nat → Nat
  items : Nat → WtsItem

namespace Wts

/-- `wts_init`. -/
def init (maxItems : Nat) : Wts := ⟨maxItems, fun _ => 0, fun _ => WtsItem.zero⟩

/-- `wts_add`. The counter is incremented before the capacity is asserted, so with
assertions the last slot stays unused. -/
def add (b : Build) (w : Wts) (p : Int) (fp : Nat) (args : List Nat) : Exec Wts := do
  b.assert (fp ≠ 0) "fp"
  b.assert (0 ≤ p ∧ p < b.redundancy) "invalid p"
  inBounds (0 ≤ p ∧ p < b.redundancy) "wts->nitems"
  let p := p.toNat
  let i := w.nitems p
  let nitems := Function.update w.nitems p (w.nitems p + 1)
  b.assert (nitems p + 1 ≤ w.maxItems) "cannot add item"
  inBounds (i < w.maxItems) "wts->items"
  inBounds (args.length ≤ wtsMaxArg) "it->args[p]"
  let it := w.items i
  return { w with
    nitems := nitems
    items := Function.update w.items i {
      func := Function.update it.func p fp
      anum := Function.update it.anum p args.length
      args := Function.update it.args p
        fun j => if j < args.length then args.getD j 0 else it.args p j } }

/-- The checks `wts_can_flush` makes on one item. -/
def checkItem (b : Build) (it : WtsItem) : Checks Unit := do
  checkLoop (fun p => Checks.unlessReturnZero (it.func p ≠ 0 ∧ it.func p = it.func 0))
    b.redundancy 0
  checkLoop (fun p => Checks.unlessReturnZero (it.anum p = it.anum 0)) b.redundancy 0
  checkLoop (fun j =>
    checkLoop (fun p => Checks.unlessReturnZero (it.args p j = it.args 0 j)) (b.redundancy - 1) 1)
    (it.anum 0) 0

/-- `wts_can_flush`. -/
def canFlush (b : Build) (w : Wts) : Exec Bool :=
  Checks.verdict do
    checkLoop (fun p => Checks.unlessReturnZero (w.nitems p = w.nitems 0)) (b.redundancy - 1) 1
    checkLoop (fun i => checkItem b (w.items i)) (w.nitems 0) 0

/-- The arguments handed to the call of an item. -/
def callArgs (it : WtsItem) : List Nat := (List.range (it.anum 0)).map (it.args 0)

/-- The calls of `wts_flush`, in order, where `run` is what the function behind a pointer does. -/
def runItems (run : Nat → List Nat → Machine → Exec Machine) (w : Wts) : Nat → Machine → Exec Machine
  | 0, m => return m
  | n + 1, m => do
      let m ← runItems run w n m
      run ((w.items n).func 0) (callArgs (w.items n)) m

/-- `wts_flush`. -/
def flushWith (run : Nat → List Nat → Machine → Exec Machine) (b : Build) (w : Wts) (m : Machine) :
    Exec (Wts × Machine) := do
  let ok ← w.canFlush b
  failIfn (ok = true) "N-way system call mismatch"
  let m ← w.runItems run (w.nitems 0) m
  return ({ w with nitems := fun p => if p < b.redundancy then 0 else w.nitems p }, m)

/-- `wts_flush` with callbacks that make their call and return. -/
def flush (b : Build) (w : Wts) (m : Machine) : Exec (Wts × Machine) :=
  w.flushWith (fun func args m => return m.call func args) b m

/-- What `n` calls do. -/
def callItems (w : Wts) : Nat → Machine → Machine
  | 0, m => m
  | n + 1, m => (callItems w n m).call ((w.items n).func 0) (callArgs (w.items n))

/-- `wts_reset`. -/
def reset (w : Wts) : Wts :=
  { w with
    items := fun i => if i < w.maxItems then WtsItem.zero else w.items i
    nitems := Function.update (Function.update w.nitems 0 0) 1 0 }

variable {b : Build} {w : Wts} {m : Machine}

theorem runItems_return (n : Nat) :
    w.runItems (fun func args m => return m.call func args) n m = .ok (w.callItems n m) := by
  induction n with
  | zero => rfl
  | succ n ih =>
    rw [runItems, ih]
    rfl

theorem flush_eq : w.flush b m = do
    let ok ← w.canFlush b
    failIfn (ok = true) "N-way system call mismatch"
    return ({ w with nitems := fun p => if p < b.redundancy then 0 else w.nitems p },
      w.callItems (w.nitems 0) m) := by
  rw [flush, flushWith, runItems_return]
  rfl

/-- A waitress that passes the pre-check is flushed. -/
theorem flush_of_canFlush (h : w.canFlush b = .ok true) :
    w.flush b m = .ok ({ w with nitems := fun p => if p < b.redundancy then 0 else w.nitems p },
      w.callItems (w.nitems 0) m) := by
  rw [flush_eq, h, ok_bind, failIfn_of rfl, ok_bind]
  rfl

/-- Without deferred calls nothing is called. -/
theorem flush_of_none {w' : Wts} {m' : Machine} (h : w.flush b m = .ok (w', m'))
    (hnone : w.nitems 0 = 0) : m' = m := by
  simp only [flush_eq, bind_eq_ok, pure_eq_ok, Except.ok.injEq, Prod.mk.injEq] at h
  obtain ⟨_, _, _, _, _, rfl⟩ := h
  rw [hnone]
  rfl

/-- A flush has no other effects than its calls. -/
theorem callItems_effects {n : Nat} : ∃ es, w.callItems n m = { m with trace := m.trace ++ es } ∧
    ∀ e ∈ es, ∃ func args, e = .called func args := by
  induction n with
  | zero => exact ⟨[], by simp [callItems], by simp⟩
  | succ n ih =>
    obtain ⟨es, hrun, hes⟩ := ih
    refine ⟨es ++ [.called ((w.items n).func 0) (callArgs (w.items n))], ?_, fun e he => ?_⟩
    · rw [callItems, hrun, Machine.call, List.append_assoc]
    · rcases List.mem_append.mp he with he | he
      · exact hes e he
      · exact ⟨_, _, List.mem_singleton.mp he⟩

theorem flush_effects {w' : Wts} {m' : Machine} (h : w.flush b m = .ok (w', m')) :
    ∃ es, m' = { m with trace := m.trace ++ es } ∧ ∀ e ∈ es, ∃ func args, e = .called func args := by
  simp only [flush_eq, bind_eq_ok, pure_eq_ok, Except.ok.injEq, Prod.mk.injEq] at h
  obtain ⟨_, _, _, _, _, rfl⟩ := h
  exact callItems_effects

/-! ## The calls of a phase as a list -/

/-- Phase `p` has put aside the calls `ds`, each a callback with its arguments. -/
structure Queued (w : Wts) (p : Nat) (ds : List (Nat × List Nat)) : Prop where
  nitems : w.nitems p = ds.length
  func : ∀ i (hi : i < ds.length), (w.items i).func p = ds[i].1
  anum : ∀ i (hi : i < ds.length), (w.items i).anum p = ds[i].2.length
  args : ∀ i (hi : i < ds.length), ∀ j (hj : j < ds[i].2.length), (w.items i).args p j = ds[i].2[j]

theorem queued_nil {p : Nat} (h : w.nitems p = 0) : w.Queued p [] :=
  ⟨h, fun _ hi => absurd hi (Nat.not_lt_zero _), fun _ hi => absurd hi (Nat.not_lt_zero _),
    fun _ hi => absurd hi (Nat.not_lt_zero _)⟩

/-- Replacing an item does not change what the new one has in common with the old. -/
theorem update_items {α : Type} (f : WtsItem → α) {k i : Nat} {it : WtsItem}
    (h : f it = f (w.items k)) : f (Function.update w.items k it i) = f (w.items i) := by
  by_cases hi : i = k
  · rw [hi, Function.update_self, h]
  · rw [Function.update_of_ne hi]

/-- Putting a call aside in phase `p` adds it to the calls of this phase. -/
theorem Queued.of_add {w' : Wts} {p fp : Nat} {ds : List (Nat × List Nat)} {args : List Nat}
    (h : w.Queued p ds) (hrun : w.add b p fp args = .ok w') :
    w'.Queued p (ds ++ [(fp, args)]) ∧ w'.maxItems = w.maxItems := by
  simp only [Wts.add, bind_eq_ok, pure_eq_ok, Except.ok.injEq, Int.toNat_natCast] at hrun
  obtain ⟨_, _, _, _, _, _, _, _, _, _, _, _, rfl⟩ := hrun
  refine ⟨?_, rfl⟩
  have hlt : ∀ i, i < (ds ++ [(fp, args)]).length → i < ds.length ∨ i = ds.length := fun i hi => by
    simp at hi
    omega
  refine ⟨by simp [h.nitems], fun i hi => ?_, fun i hi => ?_, fun i hi j hj => ?_⟩
  all_goals rcases hlt i hi with hi' | rfl
  · simp [h.nitems, Function.update_of_ne (show i ≠ ds.length by omega), h.func i hi',
      List.getElem_append_left hi']
  · simp [h.nitems]
  · simp [h.nitems, Function.update_of_ne (show i ≠ ds.length by omega), h.anum i hi',
      List.getElem_append_left hi']
  · simp [h.nitems]
  · simp only [List.getElem_append_left hi'] at hj ⊢
    simp [h.nitems, Function.update_of_ne (show i ≠ ds.length by omega), h.args i hi' j hj]
  · simp only [List.getElem_concat_length] at hj ⊢
    simp [h.nitems, hj]

/-- The calls of the other phases stay. -/
theorem Queued.of_add_ne {w' : Wts} {p q fp : Nat} {es : List (Nat × List Nat)} {args : List Nat}
    (h : w.Queued q es) (hq : q ≠ p) (hrun : w.add b p fp args = .ok w') : w'.Queued q es := by
  simp only [Wts.add, bind_eq_ok, pure_eq_ok, Except.ok.injEq, Int.toNat_natCast] at hrun
  obtain ⟨_, _, _, _, _, _, _, _, _, _, _, _, rfl⟩ := hrun
  refine ⟨?_, fun i hi => ?_, fun i hi => ?_, fun i hi j hj => ?_⟩
  · simp only [Function.update_of_ne hq]
    exact h.nitems
  · rw [update_items (fun it => it.func q) (Function.update_of_ne hq _ _)]
    exact h.func i hi
  · rw [update_items (fun it => it.anum q) (Function.update_of_ne hq _ _)]
    exact h.anum i hi
  · rw [update_items (fun it => it.args q) (Function.update_of_ne hq _ _)]
    exact h.args i hi j hj

/-- While there is room a call can be put aside. -/
theorem Queued.add {p fp : Nat} {ds : List (Nat × List Nat)} {args : List Nat} (h : w.Queued p ds)
    (hp : p < b.redundancy) (hfp : fp ≠ 0) (hargs : args.length ≤ wtsMaxArg)
    (hroom : ds.length + 2 ≤ w.maxItems) :
    ∃ w', w.add b p fp args = .ok w' ∧ w'.Queued p (ds ++ [(fp, args)]) ∧
      w'.maxItems = w.maxItems ∧ ∀ q es, q ≠ p → w.Queued q es → w'.Queued q es := by
  have hphase : (0 : Int) ≤ p ∧ (p : Int) < b.redundancy := by omega
  have hcount : Function.update w.nitems p (w.nitems p + 1) p + 1 ≤ w.maxItems := by
    rw [Function.update_self, h.nitems]
    exact hroom
  have hslot : w.nitems p < w.maxItems := by
    rw [h.nitems]
    omega
  obtain ⟨w', hrun⟩ : ∃ w', w.add b p fp args = .ok w' := by
    rw [Wts.add, Build.assert_of hfp, ok_bind, Build.assert_of hphase, ok_bind, inBounds_of hphase,
      ok_bind]
    simp only [Int.toNat_natCast]
    rw [Build.assert_of hcount, ok_bind, inBounds_of hslot, ok_bind, inBounds_of hargs, ok_bind]
    exact ⟨_, rfl⟩
  obtain ⟨hown, hmax⟩ := h.of_add hrun
  exact ⟨w', hrun, hown, hmax, fun q es hq hother => hother.of_add_ne hq hrun⟩

/-- Phases of the build that put the same calls aside pass the pre-check. -/
theorem canFlush_of_queued {ds : List (Nat × List Nat)} (hfunc : ∀ d ∈ ds, d.1 ≠ 0)
    (h : ∀ p < b.redundancy, w.Queued p ds) : w.canFlush b = .ok true := by
  have hzero := h 0 (Nat.lt_of_lt_of_le (by decide) b.two_le)
  rw [canFlush, Checks.verdict_eq_true, seq_eq_ok, checkLoop_eq_ok, checkLoop_eq_ok]
  refine ⟨fun p _ hp => ?_, fun i _ hi => ?_⟩
  · rw [Checks.unlessReturnZero_eq_ok, (h p (by omega)).nitems, hzero.nitems]
  · have hi : i < ds.length := by
      rw [hzero.nitems] at hi
      omega
    rw [checkItem, seq_eq_ok, seq_eq_ok, checkLoop_eq_ok, checkLoop_eq_ok, checkLoop_eq_ok]
    refine ⟨fun p _ hp => ?_, fun p _ hp => ?_, fun j _ hj => checkLoop_eq_ok.mpr fun p _ hp => ?_⟩
    · rw [Checks.unlessReturnZero_eq_ok, (h p (by omega)).func i hi, hzero.func i hi]
      exact ⟨hfunc _ (List.getElem_mem hi), rfl⟩
    · rw [Checks.unlessReturnZero_eq_ok, (h p (by omega)).anum i hi, hzero.anum i hi]
    · have hj : j < ds[i].2.length := by
        rw [hzero.anum i hi] at hj
        omega
      rw [Checks.unlessReturnZero_eq_ok, (h p (by omega)).args i hi j hj, hzero.args i hi j hj]

/-- The pre-check compares the number of calls over all phases of the build. -/
theorem nitems_of_canFlush (h : w.canFlush b = .ok true) {p : Nat} (hlo : 1 ≤ p)
    (hp : p < b.redundancy) : w.nitems p = w.nitems 0 := by
  rw [canFlush, Checks.verdict_eq_true, seq_eq_ok, checkLoop_eq_ok] at h
  exact Checks.unlessReturnZero_eq_ok.mp (h.1 p hlo (by omega))

theorem Queued.callArgs {ds : List (Nat × List Nat)} (h : w.Queued 0 ds) (i : Nat)
    (hi : i < ds.length) : Wts.callArgs (w.items i) = ds[i].2 := by
  refine List.ext_getElem (by simp [Wts.callArgs, h.anum i hi]) fun j _ hj => ?_
  simp [Wts.callArgs, h.args i hi j hj]

/-- The calls of phase 0 are made in order, with the arguments they were put aside with. -/
theorem callItems_of_queued {ds : List (Nat × List Nat)} (h : w.Queued 0 ds) {n : Nat}
    (hn : n ≤ ds.length) :
    w.callItems n m =
      { m with trace := m.trace ++ (ds.take n).map fun d => .called d.1 d.2 } := by
  induction n with
  | zero => simp [callItems]
  | succ n ih =>
    rw [callItems, ih (by omega), h.func n hn, h.callArgs n hn, List.take_succ_eq_append_getElem hn,
      List.map_append, ← List.append_assoc]
    rfl

end Wts

/-! ## Callbacks -/

/-- The addresses of `wts_close`, `wts_send` and `wts_sendto`: different and not null. -/
def wtsClose : Nat := 1

@[inherit_doc wtsClose] def wtsSend : Nat := 2

@[inherit_doc wtsClose] def wtsSendto : Nat := 3

/-- The result of a callback is the one promised to the handler, where the callback compares
them. An `int` is converted to `uint64_t` for it. -/
structure Env.Answers (env : Env) (trace : List Effect) (func : Nat) (args : List Nat) : Prop where
  send : func = wtsSend → (env.result trace func args).toInt64.toUInt64.toNat = args.getD 4 0
  sendto : func = wtsSendto → (env.result trace func args).toInt64.toUInt64.toNat = args.getD 6 0

instance (env : Env) (trace : List Effect) (func : Nat) (args : List Nat) :
    Decidable (env.Answers trace func args) :=
  decidable_of_iff ((func = wtsSend →
      (env.result trace func args).toInt64.toUInt64.toNat = args.getD 4 0) ∧
    (func = wtsSendto → (env.result trace func args).toInt64.toUInt64.toNat = args.getD 6 0))
    ⟨fun h => ⟨h.1, h.2⟩, fun h => ⟨h.send, h.sendto⟩⟩

/-- `wts_close`, `wts_send` or `wts_sendto`. The callbacks only read memory. -/
def runCallback (env : Env) (b : Build) (func : Nat) (args : List Nat) (m : Machine) :
    Exec Machine := do
  let res := (env.result m.trace func args).toInt64.toUInt64.toNat
  let m := m.call func args
  b.assert (func = wtsSend → res = args.getD 4 0) "unexpected result of send"
  b.assert (func = wtsSendto → res = args.getD 6 0) "unexpected result of sendto"
  return m

namespace Wts

variable {env : Env} {b : Build} {w : Wts} {m m' : Machine}

/-- The calls that were put aside all return what was promised. -/
def Answered (env : Env) (w : Wts) (m : Machine) : Prop :=
  ∀ i < w.nitems 0,
    env.Answers (w.callItems i m).trace ((w.items i).func 0) (callArgs (w.items i))

theorem runCallback_eq_ok {func : Nat} {args : List Nat} :
    runCallback env b func args m = .ok m' ↔
      (b.ndebug = true ∨ env.Answers m.trace func args) ∧ m' = m.call func args := by
  simp only [runCallback, seq_eq_ok, Build.assert_eq_ok, pure_eq_ok, Except.ok.injEq]
  constructor
  · rintro ⟨hsend, hsendto, rfl⟩
    refine ⟨?_, rfl⟩
    rcases hsend with hdebug | hsend
    · exact .inl hdebug
    · exact hsendto.imp_right fun hsendto => ⟨hsend, hsendto⟩
  · rintro ⟨hanswers, rfl⟩
    exact ⟨hanswers.imp_right Env.Answers.send, hanswers.imp_right Env.Answers.sendto, rfl⟩

theorem runItems_runCallback_eq_ok {n : Nat} :
    w.runItems (runCallback env b) n m = .ok m' ↔
      (b.ndebug = true ∨ ∀ i < n,
        env.Answers (w.callItems i m).trace ((w.items i).func 0) (callArgs (w.items i))) ∧
      m' = w.callItems n m := by
  induction n generalizing m' with
  | zero =>
    simp only [runItems, pure_eq_ok, Except.ok.injEq]
    exact ⟨fun h => ⟨.inr fun _ hi => absurd hi (Nat.not_lt_zero _), h.symm⟩, fun h => h.2.symm⟩
  | succ n ih =>
    simp only [runItems, bind_eq_ok, ih, runCallback_eq_ok]
    constructor
    · rintro ⟨_, ⟨hbefore, rfl⟩, hlast, rfl⟩
      refine ⟨?_, rfl⟩
      rcases hbefore with hdebug | hbefore
      · exact .inl hdebug
      · refine hlast.imp_right fun hlast i hi => ?_
        rcases Nat.lt_succ_iff_lt_or_eq.mp hi with hi | rfl
        · exact hbefore i hi
        · exact hlast
    · rintro ⟨hall, rfl⟩
      exact ⟨_, ⟨hall.imp_right fun h i hi => h i (by omega), rfl⟩,
        hall.imp_right fun h => h n (Nat.lt_succ_self n), rfl⟩

/-- With the callbacks of the library a flush returns if its calls return what was promised, or
this is not asserted. -/
theorem flushWith_runCallback_eq_ok {r : Wts × Machine} :
    w.flushWith (runCallback env b) b m = .ok r ↔
      (b.ndebug = true ∨ w.Answered env m) ∧ w.flush b m = .ok r := by
  simp only [flushWith, flush_eq, bind_eq_ok, runItems_runCallback_eq_ok, pure_eq_ok]
  constructor
  · rintro ⟨ok, hcan, u, hok, _, ⟨hanswered, rfl⟩, hr⟩
    exact ⟨hanswered, ok, hcan, u, hok, hr⟩
  · rintro ⟨hanswered, ok, hcan, u, hok, hr⟩
    exact ⟨ok, hcan, u, hok, _, ⟨hanswered, rfl⟩, hr⟩

theorem answered_of_none (h : w.nitems 0 = 0) : w.Answered env m :=
  fun i hi => absurd (h ▸ hi) (Nat.not_lt_zero i)

/-- The calls of the list all return what was promised, when they are made after `trace`. -/
def AllAnswered (env : Env) (trace : List Effect) (ds : List (Nat × List Nat)) : Prop :=
  ∀ i (hi : i < ds.length),
    env.Answers (trace ++ (ds.take i).map fun d => .called d.1 d.2) ds[i].1 ds[i].2

theorem answered_iff_of_queued {ds : List (Nat × List Nat)} (h : w.Queued 0 ds) :
    w.Answered env m ↔ AllAnswered env m.trace ds := by
  have hargs : ∀ i (hi : i < ds.length), callArgs (w.items i) = ds[i].2 := h.callArgs
  unfold Answered AllAnswered
  rw [h.nitems]
  refine forall₂_congr fun i hi => ?_
  rw [callItems_of_queued h hi.le, h.func i hi, hargs i hi]

end Wts

end LibSei
