-- SUMMARY: Deterministic handlers as programs of logged reads and writes, run on plain memory and run inside a phase.
import LibSei.ModeCow.Phases

/-!
# Deterministic handlers

A handler that only reads and writes is a tree: what it does next depends on the
values it has read. Run once on plain memory it has an obvious meaning; run inside a
phase every access goes through the library.
-/

namespace LibSei

open Memory Control

/-- A program of logged reads and writes. -/
inductive Handler where
  | done
  | read (t : UIntTy) (addr : Nat) (next : Nat → Handler)
  | write (t : UIntTy) (addr value : Nat) (next : Handler)

/-- What a run of a handler does, step by step. -/
inductive Access where
  | read (t : UIntTy) (addr value : Nat)
  | write (t : UIntTy) (addr value : Nat)
  deriving DecidableEq, Repr

/-- The operation an access is to the library. Reads leave no trace there. -/
def Access.toCall? : Access → Option Call
  | .read _ _ _ => none
  | .write t addr value => some (.write t addr value)

/-- The writes of a run, in order. -/
def accessWrites (as : List Access) : List Write := writesOf (as.filterMap Access.toCall?)

namespace Handler

/-- One run of the handler on plain memory. -/
def exec : Handler → Mem → List Access × Mem
  | .done, mem => ([], mem)
  | .read t addr next, mem =>
      let v := load mem addr t.sizeof
      let (as, mem) := (next v).exec mem
      (.read t addr v :: as, mem)
  | .write t addr value next, mem =>
      let (as, mem) := next.exec (store mem addr t.sizeof value)
      (.write t addr value :: as, mem)

/-- The same handler run inside the current phase. -/
def run (b : Build) : Handler → World → Exec (List Access × World)
  | .done, w => return ([], w)
  | .read t addr next, w => do
      let v := w.read t addr
      let (as, w) ← (next v).run b w
      return (.read t addr v :: as, w)
  | .write t addr value next, w => do
      let w ← w.write b t addr value
      let (as, w) ← next.run b w
      return (.write t addr value :: as, w)

/-- The handler as the body of a phase. -/
def body (b : Build) (h : Handler) (w : World) : Exec World := Prod.snd <$> h.run b w

/-- The writes of a run on plain memory lead to the memory it ends with. -/
theorem exec_mem (h : Handler) (mem : Mem) :
    (h.exec mem).2 = runWrites (accessWrites (h.exec mem).1) mem := by
  induction h generalizing mem with
  | done => rfl
  | read t addr next ih => exact ih _ mem
  | write t addr value next ih =>
    have hstore : store mem addr t.sizeof value = Write.apply _ mem := (apply_toWrite rfl mem).symm
    show (next.exec (store mem addr t.sizeof value)).2 =
      runWrites (accessWrites (next.exec (store mem addr t.sizeof value)).1) (Write.apply _ mem)
    rw [ih, ← hstore]

theorem sized_accessWrites (as : List Access) : Abuf.Sized (accessWrites as) := sized_writesOf _

/-- Inside a phase a handler runs to its end and makes exactly the accesses it makes on
plain memory. -/
theorem run_inPhase {b : Build} {w0 : World} {n k : Nat} {hist : Nat → List Write}
    (hk : k < n) (hn : n ≤ b.redundancy) (h : Handler) {w : World} {ws : List Write}
    (hw : World.InPhase w0 n hist k ws w) :
    ∃ w', h.run b w = .ok ((h.exec w.mem).1, w') ∧
      World.InPhase w0 n hist k (ws ++ accessWrites (h.exec w.mem).1) w' := by
  induction h generalizing w ws with
  | done => exact ⟨w, rfl, by simpa [exec, accessWrites, writesOf] using hw⟩
  | read t addr next ih =>
    obtain ⟨w', hrun, hin⟩ := ih (load w.mem addr t.sizeof) hw
    refine ⟨w', ?_, hin⟩
    rw [run, World.read, hrun, ok_bind]
    rfl
  | write t addr value next ih =>
    have hwrite := World.write_eq hw.p (Nat.lt_of_lt_of_le hk hn) t addr value
    obtain ⟨w', hrun, hin⟩ := ih (hw.write hk hn rfl hwrite)
    refine ⟨w', ?_, ?_⟩
    · rw [run, hwrite, ok_bind, hrun, ok_bind]
      rfl
    · rw [List.append_assoc] at hin
      exact hin

/-- The body of a phase that runs a handler makes the writes of one run on the memory of
`sei_begin`. -/
theorem body_inPhase {b : Build} {w0 : World} {n : Nat} (hn : n ≤ b.redundancy) (h : Handler)
    {k : Nat} {w : World} (hk : k < n)
    (hw : World.InPhase w0 n (fun _ => accessWrites (h.exec w0.mem).1) k [] w) :
    ∃ w', h.body b w = .ok w' ∧
      World.InPhase w0 n (fun _ => accessWrites (h.exec w0.mem).1) k
        (accessWrites (h.exec w0.mem).1) w' := by
  obtain ⟨w', hrun, hin⟩ := run_inPhase hk hn h hw
  have hmem : w.mem = w0.mem := hw.mem
  rw [hmem, List.nil_append] at hin
  exact ⟨w', by rw [body, hrun]; rfl, hin⟩

end Handler

namespace World

/-- The state in which phase `k` of a transaction that runs a handler starts. -/
def handlerStart (env : Env) (b : Build) (h : Handler) (w : World) (k : Nat) : Exec World :=
  phaseStart env b (fun _ => h.body b) w k

/-- The state at the end of the last phase of a transaction that runs a handler. -/
def handlerEnd (env : Env) (b : Build) (h : Handler) (w : World) : Exec World := do
  let w ← handlerStart env b h w (w.sei.redundancyLevel - 1)
  h.body b w

section Handlers

variable (env : Env) {b : Build} {w0 : World} {n k : Nat}

/-- Every phase of a deterministic handler is reached, on the memory of `sei_begin`. -/
theorem Idle.handlerStart (hidle : w0.Idle b n) (h : Handler) (hk : k < n) :
    ∃ w, World.handlerStart env b h w0 k = .ok w ∧
      InPhase w0 n (fun _ => accessWrites (h.exec w0.mem).1) k [] w :=
  hidle.startable.exists_phaseStart (fun _ => Handler.sized_accessWrites _)
    (fun _ _ hj hw => h.body_inPhase hidle.le hj hw) hk

/-- A transaction that runs a deterministic handler reaches the end of its last phase. -/
theorem Idle.handlerEnd (hidle : w0.Idle b n) (h : Handler) :
    ∃ w, World.handlerEnd env b h w0 = .ok w ∧
      InPhase w0 n (fun _ => accessWrites (h.exec w0.mem).1) (n - 1)
        (accessWrites (h.exec w0.mem).1) w := by
  have hlast : n - 1 < n := by
    have := hidle.two_le
    omega
  obtain ⟨w, hstart, hin⟩ := hidle.handlerStart env h hlast
  obtain ⟨w', hbody, hin'⟩ := h.body_inPhase hidle.le hlast hin
  refine ⟨w', ?_, hin'⟩
  rw [World.handlerEnd, hidle.level, hstart, ok_bind, hbody]

end Handlers

end World

end LibSei
