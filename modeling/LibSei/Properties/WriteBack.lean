-- SUMMARY: The write-back copy-on-write buffer is an overlay of memory: reads see the writes, and applying it performs them.
import LibSei.Cow.Whole

/-!
# The write-back buffer

In `COW_WB` builds a phase reads and writes through its buffer. The result here compares any
sequence of aligned accesses with the same sequence on plain memory.
-/

namespace LibSei

open Memory Control

/-- A call of `cow_read` or `cow_write`. `room` says whether `realloc` would find memory then. -/
inductive CowOp where
  | read (t : UIntTy) (addr : Nat)
  | write (t : UIntTy) (addr value : Nat) (room : Bool)

namespace CowOp

/-- The address is a multiple of the width. -/
def Aligned : CowOp → Prop
  | read t addr => addr % t.sizeof = 0
  | write t addr _ _ => addr % t.sizeof = 0

/-- `realloc` finds memory if the call needs some. -/
def HasRoom : CowOp → Prop
  | read _ _ => True
  | write _ _ _ room => room = true

/-- The call on a buffer and memory. -/
def run (b : Build) : CowOp → Cow × Mem → Exec (Option Nat × Cow × Mem)
  | read t addr, s => do
      let v ← s.1.read b .wb s.2 t addr
      return (some v, s)
  | write t addr value room, s => do
      let s ← s.1.write b .wb room s.2 t addr value
      return (none, s)

/-- The same access on plain memory. -/
def plain : CowOp → Mem → Option Nat × Mem
  | read t addr, m => (some (load m addr t.sizeof), m)
  | write t addr value _, m => (none, store m addr t.sizeof value)

/-- A sequence of accesses on plain memory, with the values read. -/
def plainAll : List CowOp → Mem → List (Option Nat) × Mem
  | [], m => ([], m)
  | op :: ops, m => ((op.plain m).1 :: (plainAll ops (op.plain m).2).1, (plainAll ops (op.plain m).2).2)

variable {b : Build} {op : CowOp} {ops : List CowOp} {c c' : Cow} {m m' : Mem}

/-! ## One access -/

/-- An access on the buffer is the access on what is seen through it. -/
theorem run_spec {r : Option Nat} (hc : c.WellFormed) (ha : op.Aligned)
    (h : op.run b (c, m) = .ok (r, c', m')) :
    c'.WellFormed ∧ m' = m ∧ r = (op.plain (c.view m)).1 ∧ c'.view m = (op.plain (c.view m)).2 := by
  cases op with
  | read t addr =>
    rw [run, Cow.read_wb ha] at h
    cases h
    exact ⟨hc, rfl, rfl, rfl⟩
  | write t addr value room =>
    obtain ⟨⟨c1, m1⟩, hwrite, h⟩ := bind_eq_ok.mp h
    cases h
    obtain ⟨hwell, -, hmem⟩ := Cow.write_spec hc ha hwrite
    rw [if_neg (by decide)] at hmem
    exact ⟨hwell, hmem.1, rfl, hmem.2⟩

theorem run_error {e : Stop} (hc : c.WellFormed) (ha : op.Aligned) (h : op.run b (c, m) = .error e) :
    e = .fail "no space left" [] := by
  cases op with
  | read t addr =>
    rw [run, Cow.read_wb ha] at h
    cases h
  | write t addr value room =>
    rcases bind_eq_error.mp h with h | ⟨s, -, h⟩
    · exact Cow.write_error hc ha h
    · cases h

/-- With memory for the buckets an access goes through, and adds at most one entry to each. -/
theorem run_total {n : Nat} (hc : c.WellFormed) (ha : op.Aligned) (hroom : op.HasRoom)
    (hlen : ∀ i < cowMax, (c.table i).length ≤ n) (hn : n + 1 < 2 ^ 30) :
    ∃ r c' m', op.run b (c, m) = .ok (r, c', m') ∧ ∀ i < cowMax, (c'.table i).length ≤ n + 1 := by
  cases op with
  | read t addr =>
    rw [run, Cow.read_wb ha]
    exact ⟨_, _, _, rfl, fun i hi => (hlen i hi).trans (Nat.le_succ n)⟩
  | write t addr value room =>
    obtain rfl : room = true := hroom
    have hbucket := hlen _ (Cow.hash_lt (addr / 8))
    obtain ⟨c', m', hwrite⟩ := Cow.write_total b .wb m value hc ha (by omega)
    refine ⟨none, c', m', bind_eq_ok.mpr ⟨_, hwrite, rfl⟩, fun i hi => ?_⟩
    obtain ⟨-, hkeys, -⟩ := Cow.write_spec hc ha hwrite
    rw [← Cow.length_keys, hkeys]
    have hadd := Cow.length_addKey_le c.keys (addr / 8) i
    rw [Cow.length_keys] at hadd
    exact hadd.trans (Nat.succ_le_succ (hlen i hi))

/-! ## Sequences of accesses -/

theorem runAll_spec {rs : List (Option Nat)} (hc : c.WellFormed) (ha : ∀ op ∈ ops, op.Aligned)
    (h : runEach (run b) ops (c, m) = .ok (rs, c', m')) :
    c'.WellFormed ∧ m' = m ∧ rs = (plainAll ops (c.view m)).1 ∧
      c'.view m = (plainAll ops (c.view m)).2 := by
  induction ops generalizing c m rs with
  | nil =>
    cases h
    exact ⟨hc, rfl, rfl, rfl⟩
  | cons op ops ih =>
    rw [List.forall_mem_cons] at ha
    obtain ⟨r, ⟨c1, m1⟩, rs1, hop, hrest, rfl⟩ := runEach_cons_eq_ok.mp h
    obtain ⟨hwell, rfl, rfl, hview⟩ := run_spec hc ha.1 hop
    obtain ⟨hwell', hmem, hrs, hview'⟩ := ih hwell ha.2 hrest
    rw [hview] at hrs hview'
    exact ⟨hwell', hmem, by rw [hrs]; rfl, hview'⟩

theorem runAll_error {e : Stop} (hc : c.WellFormed) (ha : ∀ op ∈ ops, op.Aligned)
    (h : runEach (run b) ops (c, m) = .error e) : e = .fail "no space left" [] := by
  induction ops generalizing c m with
  | nil => cases h
  | cons op ops ih =>
    rw [List.forall_mem_cons] at ha
    rcases bind_eq_error.mp h with h | ⟨⟨r, c1, m1⟩, hop, h⟩
    · exact run_error hc ha.1 h
    · obtain ⟨hwell, -⟩ := run_spec hc ha.1 hop
      rcases bind_eq_error.mp h with h | ⟨s, -, h⟩
      · exact ih hwell ha.2 h
      · cases h

theorem runAll_total {n : Nat} (hc : c.WellFormed) (ha : ∀ op ∈ ops, op.Aligned)
    (hroom : ∀ op ∈ ops, op.HasRoom) (hlen : ∀ i < cowMax, (c.table i).length ≤ n)
    (hn : n + ops.length < 2 ^ 30) : ∃ r, runEach (run b) ops (c, m) = .ok r := by
  induction ops generalizing c m n with
  | nil => exact ⟨_, rfl⟩
  | cons op ops ih =>
    rw [List.forall_mem_cons] at ha hroom
    rw [List.length_cons] at hn
    obtain ⟨r, c1, m1, hop, hlen1⟩ := run_total (b := b) (m := m) hc ha.1 hroom.1 hlen (by omega)
    obtain ⟨hwell, -⟩ := run_spec hc ha.1 hop
    obtain ⟨⟨rs, s'⟩, hrest⟩ := ih (m := m1) hwell ha.2 hroom.2 hlen1 (by omega)
    exact ⟨_, runEach_cons_of hop hrest⟩

/-- Aligned accesses through the buffer do what they do on plain memory: the reads return the
same, memory itself stays, the buckets have one entry for each key and room for more, and
`cow_apply` makes memory what the plain one is. Only the lack of memory for the buckets stops
them, and there is none needed that 2 ^ 30 entries would not fit. -/
theorem writeBack_overlay (b : Build) (hc : c.Ready) (m : Mem) (ops : List CowOp)
    (ha : ∀ op ∈ ops, op.Aligned) :
    (∀ rs c' m', runEach (run b) ops (c, m) = .ok (rs, c', m') →
      rs = (plainAll ops m).1 ∧ m' = m ∧
      (∀ i < cowMax, ((c'.table i).map CowEntry.wkey).Nodup ∧
        ((c'.table i).length : Int) < (c'.maxSize i).toInt) ∧
      (c'.apply m').2 = (plainAll ops m).2 ∧ (c'.apply m').1.Empty) ∧
    (∀ e, runEach (run b) ops (c, m) = .error e → e = .fail "no space left" []) ∧
    ((∀ op ∈ ops, op.HasRoom) → ops.length < 2 ^ 30 → ∃ r, runEach (run b) ops (c, m) = .ok r) := by
  refine ⟨fun rs c' m' h => ?_, fun e h => runAll_error hc.wellFormed ha h, fun hroom hlen => ?_⟩
  · obtain ⟨hwell, rfl, hrs, hview⟩ := runAll_spec hc.wellFormed ha h
    rw [hc.empty.view] at hrs hview
    obtain ⟨hempty, hmem⟩ := Cow.apply_spec hwell.hashed m'
    exact ⟨hrs, rfl, fun i hi => ⟨hwell.hashed.nodup i hi, hwell.below i hi⟩, hmem.trans hview, hempty⟩
  · refine runAll_total (n := 0) hc.wellFormed ha hroom (fun i hi => ?_) (by omega)
    rw [hc.empty i hi]
    exact Nat.le_refl 0

/-- A byte and the word around it, with buckets that have room for one entry at first. -/
theorem writeBack_overlay_byteInWord :
    ∃ c', runEach (run (Build.twoWay true false))
        [.write .uint8 65 7 true, .read .uint64 64] (Cow.init 1, fun _ => 1) =
        .ok ([none, some 72340172838078209], c', fun _ => 1) ∧
      (c'.apply fun _ => 1).2 65 = 7 := by
  obtain ⟨hok, -, htotal⟩ := writeBack_overlay (Build.twoWay true false)
    (Cow.ready_init (by decide : 0 < (1 : Int32).toInt)) (fun _ => 1)
    [.write .uint8 65 7 true, .read .uint64 64] (by simp [Aligned, UIntTy.sizeof])
  obtain ⟨⟨rs, c', m'⟩, hrun⟩ := htotal (by simp [HasRoom]) (by decide)
  obtain ⟨hrs, hmem, -, happly, -⟩ := hok rs c' m' hrun
  refine ⟨c', ?_, ?_⟩
  · rw [hrun, hrs, hmem]
    rfl
  · rw [← hmem, happly]
    rfl

end CowOp

end LibSei
