-- SUMMARY: Which stores of the write functions reach the log: the ignore decision is taken once per call, at its first byte.
import LibSei.Itm.Calls

/-!
# Tracked writes

Bytes of the stack segment and of the ignore ranges need no log entry. The functions of the
interface decide for a whole access or block by its first byte, and `ignore_addr` takes the end
of a range as part of it. The result here says for which destinations this leaves a byte
without an entry.
-/

namespace LibSei

open Memory Control

/-! ## Bytes that need no entry -/

namespace Tmi

variable {b : Build} {t : Tmi} {p : Nat}

/-- The byte lies in the stack segment or in an ignore range, which does not contain its
end. -/
def Untracked (t : Tmi) (sp byte : Nat) : Prop :=
  (sp ≤ byte ∧ byte < t.high) ∨
    ∃ i < t.ignore.num, t.ignore.addrS i ≤ byte ∧ byte < t.ignore.addrE i

/-- What `ignore_addr` tests while writes are not disabled. -/
theorem ignoreAddr_eq_true (hwrite : t.ignore.writeDisable = 0) {sp byte : Nat} :
    t.ignoreAddr sp byte = true ↔ (sp ≤ byte ∧ byte < t.high) ∨
      ∃ i < t.ignore.num, t.ignore.addrS i ≤ byte ∧ byte ≤ t.ignore.addrE i := by
  simp [ignoreAddr, hwrite, Ignore.covers]

/-- Every byte a call stores to is in the log of the phase with its old value, unless it needs
no entry. -/
def LogsStores (p sp : Nat) (t : Tmi) (c : WriteCall) (t' : Tmi) : Prop :=
  ∀ byte, (∃ w ∈ c.stores sp t, w.Covers byte) → ¬ t.Untracked sp byte →
    (t.sei.cow p).Logs (t'.sei.cow p) byte (t.machine.mem byte)

/-- Calls that write log what they store exactly when their first byte is neither in the stack
segment nor in an ignore range or at its end, or no byte of the destination needs an entry. A
call that is not ignored and makes more stores than the log has room for does not return. -/
theorem logsStores_iff (hp : t.sei.p = p) (hlt : p < b.redundancy)
    (hint : (t.sei.cow p).maxSize < 2 ^ 31) (hwrite : t.ignore.writeDisable = 0) (sp : Nat)
    (c : WriteCall) :
    if t.ignoreAddr sp c.dst = true ∨ (c.stores sp t).length ≤ (t.sei.cow p).room then
      ∃ t', c.run b sp t = .ok t' ∧
        t'.machine.mem = runWrites (c.stores sp t) t.machine.mem ∧
        (LogsStores p sp t c t' ↔
          ¬ ((sp ≤ c.dst ∧ c.dst < t.high) ∨
            ∃ i < t.ignore.num, t.ignore.addrS i ≤ c.dst ∧ c.dst ≤ t.ignore.addrE i) ∨
          ∀ i < c.size, t.Untracked sp (c.dst + i))
    else c.run b sp t = .error (.fail "no space left" []) := by
  rw [← ignoreAddr_eq_true hwrite]
  cases hig : t.ignoreAddr sp c.dst with
  | false =>
    have hrun := c.run_of_tracked hp hlt hint hig
    simp only [Bool.false_eq_true, false_or]
    split at hrun
    · next hfits =>
      obtain ⟨t', hrun, hwrote⟩ := hrun
      rw [if_pos hfits]
      exact ⟨t', hrun, hwrote.mem, iff_of_true (fun byte hstored _ => hwrote.logs hstored)
        (.inl (by decide))⟩
    · next hfull => rwa [if_neg hfull]
  | true =>
    have hignored := c.run_of_ignored (b := b) hig
    rw [if_pos (.inl rfl)]
    refine ⟨_, (hignored 0).1, rfl, ?_, ?_⟩
    · intro hlogs
      refine .inr fun i hi => ?_
      by_contra htracked
      have hstored := (hignored (c.dst + i)).2.mpr ⟨Nat.le_add_right _ _, by omega⟩
      exact Abuf.not_logs_self _ (hlogs _ hstored htracked)
    · rintro (hnot | hall) byte hstored htracked
      · exact absurd rfl hnot
      · obtain ⟨hlo, hhi⟩ := (hignored byte).2.mp hstored
        have hbyte := hall (byte - c.dst) (by omega)
        rw [Nat.add_sub_cancel' hlo] at hbyte
        exact absurd hbyte htracked

/-- A thread whose handler has put the bytes `[64, 72)` on the list of ignored ranges. -/
def ignoringWord (mem : Mem) : Tmi :=
  { firstPhase mem with ignore := ⟨fun _ => 64, fun _ => 72, 1, 0, 0⟩ }

/-- A copy into the range is ignored, which it may be. -/
theorem logsStores_insideRange :
    ∃ t', (WriteCall.memcpy 64 128 8 8).run (Build.twoWay true false) 0
        (ignoringWord fun _ => 0) = .ok t' ∧
      LogsStores 0 0 (ignoringWord fun _ => 0) (.memcpy 64 128 8 8) t' := by
  have hcall := logsStores_iff (b := Build.twoWay true false) (p := 0)
    (t := ignoringWord fun _ => 0) rfl (by decide) (by decide) rfl 0 (.memcpy 64 128 8 8)
  rw [if_pos (.inl rfl)] at hcall
  obtain ⟨t', hrun, _, hiff⟩ := hcall
  refine ⟨t', hrun, hiff.mpr (.inr fun i hi => .inr ⟨0, by decide, Nat.le_add_right _ _, ?_⟩)⟩
  have hi : i < 8 := hi
  show 64 + i < 72
  omega

/-- After `__sei_ignore_addr` for `[64, 72)`, the byte at 72 is written without an entry. -/
theorem unlogged_endOfRange :
    ∃ t', (firstPhase fun _ => 0).seiIgnoreAddr (Build.twoWay true false) 64 72 = .ok t' ∧
      ¬ t'.Untracked 0 72 ∧
      ∃ t'', (WriteCall.write .uint8 72 1).run (Build.twoWay true false) 0 t' = .ok t'' ∧
        t''.machine.mem 72 = 1 ∧ (t''.sei.cow 0).pushed = 0 := by
  refine ⟨_, rfl, ?_, _, rfl, by decide, rfl⟩
  rintro (⟨_, hstack⟩ | ⟨i, hi, hrange⟩)
  · exact absurd hstack (by decide)
  · obtain rfl : i = 0 := Nat.lt_one_iff.mp hi
    exact absurd hrange (by decide)

end Tmi

end LibSei
