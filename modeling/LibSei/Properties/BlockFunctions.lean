-- SUMMARY: For which arguments the transactional memset, memcpy and memmove functions are what their names say.
import LibSei.Cow.Traversal
import LibSei.Itm.Calls

/-!
# Block functions

The compiler replaces the block functions of the C library by functions of the transactional
interface, and calls of `memmove` by an instrumented copy of the OpenBSD one. The results here
say for which arguments these do what the C library does, with every byte of the destination
in the log.
-/

namespace LibSei

open Memory Control

namespace Tmi

section Properties

variable {b : Build} {t : Tmi} {sp p : Nat} (hp : t.sei.p = p) (hlt : p < b.redundancy)
  (hint : (t.sei.cow p).maxSize < 2 ^ 31)

/-! ## memset -/

/-- The range is set to the byte, nothing else changes, and each byte of the range was written
once. -/
structure Sets (p : Nat) (t : Tmi) (s n : Nat) (c : UInt8) (t' : Tmi) : Prop where
  range : ∀ i < n, t'.machine.mem (s + i) = c
  others : ∀ byte, ¬ (s ≤ byte ∧ byte < s + n) → t'.machine.mem byte = t.machine.mem byte
  once : ∀ i < n, (t.sei.cow p).timesLogged (t'.sei.cow p) (s + i) = 1

include hp hlt hint in
/-- In a phase whose log has an `int` capacity, a memset of an address that is not ignored does
its work exactly when the range ends below the end of the address space, the pattern word of a
whole word in it repeats the byte, and the log has room for the writes. -/
theorem itmMemsetW_sets_iff {s n : UInt64} (c : Int32) (hnot : t.ignoreAddr sp s.toNat = false) :
    (∃ t', t.itmMemsetW b sp s c n = .ok (some s, t') ∧
        Sets p t s.toNat n.toNat c.toUInt32.toUInt8 t') ↔
      s.toNat + n.toNat < 2 ^ 64 ∧ (c.toUInt32.toUInt8.toNat < 128 ∨ c.toUInt32.toUInt8 = 255 ∨
        s.toNat + n.toNat < wordAbove s.toNat + 8) ∧
      memsetEntries s.toNat (s.toNat + n.toNat) ≤ (t.sei.cow p).room := by
  have hcall : t.itmMemsetW b sp s c n = (memsetW s c n).run (seiAccess b) t := by
    rw [itmMemsetW, hnot]
    rfl
  have hrun := run_seiAccess hp hlt hint (memsetW s c n)
  rw [hcall]
  rcases Nat.lt_or_ge (s.toNat + n.toNat) (2 ^ 64) with hfit | hwrap
  · rw [length_writes_memsetW c _ hfit] at hrun
    split at hrun
    · next hroom =>
      obtain ⟨t', hrun, hwrote⟩ := hrun
      obtain ⟨ws, hruns, hmem, hcons, _⟩ := (fillsUp_memsetW c t.machine.mem hfit).spec
      rw [hruns.writes] at hwrote
      rw [hruns.eval] at hrun
      have hmem' := hwrote.mem.trans hmem
      rw [hrun, ← memsetByte_eq_iff]
      constructor
      · rintro ⟨_, ⟨⟩, hsets⟩
        refine ⟨hfit, fun byte hbyte => ?_, hroom⟩
        have hrange := hsets.range (byte - s.toNat) (by omega)
        rw [Nat.add_sub_cancel' hbyte.1, hmem', fill_inside hbyte] at hrange
        exact hrange
      · rintro ⟨_, hbytes, _⟩
        refine ⟨t', rfl, fun i hi => ?_, fun byte hbyte => ?_, fun i hi => ?_⟩
        · rw [hmem', fill_inside (by omega), hbytes _ (by omega)]
        · rw [hmem', fill_outside hbyte]
        · rw [hwrote.timesLogged, hcons.coverCount, if_pos (by omega)]
    · next hfull =>
      rw [hrun]
      refine iff_of_false ?_ fun h => hfull h.2.2
      rintro ⟨_, hok, _⟩
      cases hok
  · -- nothing is written, so the first byte of the range is not
    rw [(runs_memsetW_of_wrap c t.machine.mem hwrap).writes, List.length_nil,
      if_pos (Nat.zero_le _)] at hrun
    obtain ⟨t', hrun, hwrote⟩ := hrun
    have hn : 0 < n.toNat := by
      have := s.toNat_lt
      omega
    refine iff_of_false ?_ (fun h => absurd h.1 (by omega))
    rintro ⟨_, heq, hsets⟩
    obtain ⟨_, rfl⟩ := Prod.mk.inj (Except.ok.inj (hrun.symm.trans heq))
    have honce := hsets.once 0 hn
    rw [hwrote.timesLogged] at honce
    cases honce

/-- Eight bytes set to a letter. -/
theorem itmMemsetW_sets_letter :
    (firstPhase fun _ => 0).ignoreAddr 0 8 = false ∧
      ∃ t', (firstPhase fun _ => 0).itmMemsetW (Build.twoWay true false) 0 8 65 8 =
          .ok (some 8, t') ∧ Sets 0 (firstPhase fun _ => 0) 8 8 65 t' :=
  ⟨rfl, (itmMemsetW_sets_iff rfl (by decide) (by decide) 65 rfl).mpr
    ⟨by decide, .inl (by decide), by rw [room_firstPhase]; decide⟩⟩

/-- Setting a word to the byte 128: the bytes behind the first become 255. -/
theorem itmMemsetW_spreads_sign :
    ∃ t', (firstPhase fun _ => 0).itmMemsetW (Build.twoWay true false) 0 8 128 8 =
        .ok (some 8, t') ∧ t'.machine.mem 8 = 128 ∧ t'.machine.mem 9 = 255 :=
  ⟨_, rfl, by decide, by decide⟩

/-! ## memcpy -/

/-- The destination holds what the source held, nothing else changes, and exactly the bytes of
the destination were logged. -/
structure Copies (p : Nat) (t : Tmi) (dst src size : Nat) (t' : Tmi) : Prop where
  range : ∀ i < size, t'.machine.mem (dst + i) = t.machine.mem (src + i)
  others : ∀ byte, ¬ (dst ≤ byte ∧ byte < dst + size) → t'.machine.mem byte = t.machine.mem byte
  logged : ∀ byte, 0 < (t.sei.cow p).timesLogged (t'.sei.cow p) byte ↔
    dst ≤ byte ∧ byte < dst + size

section Memcpy

variable {dst src size : UInt64}

include hp hlt hint in
theorem itmMemcpyRtWt_eq (hnot : t.ignoreAddr sp dst.toNat = false) (src size : UInt64)
    (fuel : Nat) :
    if ((memcpyRtWt dst src size fuel).writes t.machine.mem).length ≤ (t.sei.cow p).room then
      ∃ t', t.itmMemcpyRtWt b sp dst src size fuel =
          .ok ((memcpyRtWt dst src size fuel).eval t.machine.mem, t') ∧
        Wrote p t ((memcpyRtWt dst src size fuel).writes t.machine.mem) t'
    else t.itmMemcpyRtWt b sp dst src size fuel = .error (.fail "no space left" []) := by
  simp only [itmMemcpyRtWt, hnot, Bool.false_eq_true, if_false]
  exact run_seiAccess hp hlt hint _

include hp hlt hint in
/-- A copy that returns has found room for its bytes. -/
theorem itmMemcpyRtWt_eq_some {fuel : Nat} {r : UInt64} {t' : Tmi}
    (hnot : t.ignoreAddr sp dst.toNat = false)
    (hrun : t.itmMemcpyRtWt b sp dst src size fuel = .ok (some r, t')) :
    Wrote p t ((memcpyRtWt dst src size fuel).writes t.machine.mem) t' ∧
      size.toNat < 2 ^ 32 ∧ max 1 size.toNat ≤ fuel ∧
      ((memcpyRtWt dst src size fuel).writes t.machine.mem).length ≤ (t.sei.cow p).room := by
  have hcall := itmMemcpyRtWt_eq hp hlt hint hnot src size fuel
  split at hcall
  · next hroom =>
    obtain ⟨t'', hrun', hwrote⟩ := hcall
    rw [hrun'] at hrun
    obtain ⟨heval, rfl⟩ := Prod.mk.inj (Except.ok.inj hrun)
    refine ⟨hwrote, ?_, fuel_of_eval_memcpyRtWt heval, hroom⟩
    by_contra hlarge
    rw [eval_memcpyRtWt_of_large _ _ (Nat.not_lt.mp hlarge)] at heval
    cases heval
  · rw [hcall] at hrun
    cases hrun

include hp hlt hint in
/-- That is an entry for every byte. -/
theorem size_le_room_of_itmMemcpyRtWt {fuel : Nat} {r : UInt64} {t' : Tmi}
    (hnot : t.ignoreAddr sp dst.toNat = false) (hdst : dst.toNat + size.toNat ≤ 2 ^ 64)
    (hpos : 1 ≤ size.toNat) (hrun : t.itmMemcpyRtWt b sp dst src size fuel = .ok (some r, t')) :
    size.toNat ≤ (t.sei.cow p).room := by
  obtain ⟨-, hsize, hfuel, hroom⟩ := itmMemcpyRtWt_eq_some hp hlt hint hnot hrun
  obtain ⟨ws, hruns, -, hlength⟩ := consecutive_memcpyRtWt dst src t.machine.mem hpos hsize hdst
    (show size.toNat ≤ fuel by omega)
  rwa [hruns.writes, hlength] at hroom

include hp hlt hint in
/-- A copy of bytes for which the log has room. -/
theorem itmMemcpyRtWt_fills (hnot : t.ignoreAddr sp dst.toNat = false)
    (hdst : dst.toNat + size.toNat ≤ 2 ^ 64) (hsrc : src.toNat + size.toNat ≤ 2 ^ 64)
    (hpos : 1 ≤ size.toNat) (hsize : size.toNat < 2 ^ 32)
    (hroom : size.toNat ≤ (t.sei.cow p).room) {fuel : Nat} (hfuel : size.toNat ≤ fuel) :
    ∃ t' ws, t.itmMemcpyRtWt b sp dst src size fuel = .ok (some dst, t') ∧ Wrote p t ws t' ∧
      t'.machine.mem = fill (copiedByte t.machine.mem dst.toNat src.toNat) dst.toNat
        (dst.toNat + size.toNat) t.machine.mem ∧
      Consecutive ws dst.toNat (dst.toNat + size.toNat) := by
  have hcall := itmMemcpyRtWt_eq hp hlt hint hnot src size fuel
  obtain ⟨ws, hruns, hmem, hcons, hcounts⟩ :=
    (fillsUp_memcpyRtWt dst src t.machine.mem hpos hsize hdst hsrc hfuel).spec
  have hlength : dst.toNat + size.toNat = dst.toNat + ws.length := hcons.length hcounts
  rw [hruns.writes, hruns.eval, if_pos (by omega)] at hcall
  obtain ⟨t', hrun, hwrote⟩ := hcall
  exact ⟨t', ws, hrun, hwrote, hwrote.mem.trans hmem, hcons⟩

include hp hlt hint in
/-- In a phase whose log has an `int` capacity, a copy to an address that is not ignored, from a
source apart from the destination, does its work exactly when there is a byte to copy and the log
has room for all of them. -/
theorem itmMemcpyRtWt_copies_iff (dst src size : UInt64)
    (hnot : t.ignoreAddr sp dst.toNat = false) (hdst : dst.toNat + size.toNat ≤ 2 ^ 64)
    (hsrc : src.toNat + size.toNat ≤ 2 ^ 64)
    (hapart : dst.toNat + size.toNat ≤ src.toNat ∨ src.toNat + size.toNat ≤ dst.toNat) :
    (∃ fuel t', t.itmMemcpyRtWt b sp dst src size fuel = .ok (some dst, t') ∧
        Copies p t dst.toNat src.toNat size.toNat t') ↔
      1 ≤ size.toNat ∧ size.toNat ≤ (t.sei.cow p).room := by
  constructor
  · rintro ⟨fuel, t', hrun, hcopies⟩
    obtain ⟨hwrote, -, hfuel, -⟩ := itmMemcpyRtWt_eq_some hp hlt hint hnot hrun
    rcases Nat.eq_zero_or_pos size.toNat with hzero | hpos
    · -- a copy of no bytes has written one
      obtain rfl : size = 0 := UInt64.toNat_inj.mp hzero
      obtain ⟨fuel, rfl⟩ := Nat.exists_eq_succ_of_ne_zero (show fuel ≠ 0 by omega)
      have hcov : ∃ w ∈ (memcpyRtWt dst src 0 (fuel + 1)).writes t.machine.mem,
          w.Covers dst.toNat := by
        rw [(runs_memcpyRtWt_zero t.machine.mem fuel).writes]
        exact ⟨_, List.mem_singleton_self _, le_refl _, Nat.lt_succ_self _⟩
      have hlogged := hcopies.logged dst.toNat
      rw [hwrote.timesLogged, coverCount_pos] at hlogged
      exact absurd (hlogged.mp hcov).2 (by simp)
    · exact ⟨hpos, size_le_room_of_itmMemcpyRtWt hp hlt hint hnot hdst hpos hrun⟩
  · rintro ⟨hpos, hroom⟩
    have hlimit := Abuf.room_lt hint
    have hsize : size.toNat < 2 ^ 32 := by omega
    obtain ⟨t', ws, hrun, hwrote, hmem, hcons⟩ :=
      itmMemcpyRtWt_fills hp hlt hint hnot hdst hsrc hpos hsize hroom (le_refl _)
    refine ⟨_, t', hrun, fun i hi => ?_, fun byte hbyte => ?_, fun byte => ?_⟩
    · rw [hmem, fill_copiedByte_of_apart hapart hi]
    · rw [hmem, fill_outside hbyte]
    · rw [hwrote.timesLogged, coverCount_pos, hcons.covers_iff]

/-- Three bytes copied. -/
theorem itmMemcpyRtWt_copies_threeBytes :
    (firstPhase fun i => UInt8.ofNat i).ignoreAddr 0 32 = false ∧
      ∃ fuel t', (firstPhase fun i => UInt8.ofNat i).itmMemcpyRtWt (Build.twoWay true false) 0
          32 64 3 fuel = .ok (some 32, t') ∧ Copies 0 (firstPhase fun i => UInt8.ofNat i) 32 64 3 t' :=
  ⟨rfl, (itmMemcpyRtWt_copies_iff rfl (by decide) (by decide) 32 64 3 rfl (by decide) (by decide)
    (by decide)).mpr ⟨by decide, by rw [room_firstPhase]; decide⟩⟩

/-- Copying no bytes changes one, copying `2 ^ 31` bytes fills the log, and a copy of `2 ^ 32`
bytes does not return. -/
theorem itmMemcpyRtWt_sizes_outside :
    (∃ t', (firstPhase fun i => UInt8.ofNat i).itmMemcpyRtWt (Build.twoWay true false) 0
        32 64 0 1 = .ok (some 32, t') ∧ t'.machine.mem 32 = 64) ∧
      (∀ fuel, 2 ^ 31 ≤ fuel →
        (firstPhase fun i => UInt8.ofNat i).itmMemcpyRtWt (Build.twoWay true false) 0
          32 8589934592 2147483648 fuel = .error (.fail "no space left" [])) ∧
      ∀ fuel t', (firstPhase fun i => UInt8.ofNat i).itmMemcpyRtWt (Build.twoWay true false) 0
        32 8589934592 4294967296 fuel ≠ .ok (some 32, t') := by
  have hnot : (firstPhase fun i => UInt8.ofNat i).ignoreAddr 0 (32 : UInt64).toNat = false := rfl
  refine ⟨⟨_, rfl, by decide⟩, fun fuel hfuel => ?_, fun fuel t' hrun => ?_⟩
  · have hcall := itmMemcpyRtWt_eq (b := Build.twoWay true false) (p := 0) rfl (by decide)
      (by decide) hnot 8589934592 2147483648 fuel
    obtain ⟨ws, hruns, -, hlength⟩ := consecutive_memcpyRtWt 32 8589934592
      (firstPhase fun i => UInt8.ofNat i).machine.mem
      (show 0 < (2147483648 : UInt64).toNat by decide) (by decide) (by decide) hfuel
    rw [hruns.writes, hlength, room_firstPhase] at hcall
    rwa [if_neg (by decide)] at hcall
  · obtain ⟨-, hsize, -⟩ := itmMemcpyRtWt_eq_some (b := Build.twoWay true false) (p := 0) rfl
      (by decide) (by decide) hnot hrun
    exact absurd hsize (by decide)

/-! ## memmove -/

/-- Repeating the first `d` bytes gives a range back exactly when it has period `d`. -/
theorem repeats_iff {m : Mem} {src d n : Nat} (hd : 0 < d) :
    (∀ i < n, m (src + i % d) = m (src + i)) ↔
      ∀ i < n, d ≤ i → m (src + (i - d)) = m (src + i) := by
  constructor
  · intro h i hi hdi
    rw [← h i hi, ← h (i - d) (by omega), ← Nat.mod_eq_sub_mod hdi]
  · intro h i hi
    induction i using Nat.strong_induction_on with
    | _ i ih =>
      rcases Nat.lt_or_ge i d with hlt | hge
      · rw [Nat.mod_eq_of_lt hlt]
      · rw [Nat.mod_eq_sub_mod hge, ih (i - d) (by omega) (by omega), h i hi hge]

include hp hlt hint in
/-- In a phase whose log has an `int` capacity, a move to an address that is not ignored does its
work exactly when it goes down or the source repeats itself, and the log has room. -/
theorem itmMemmoveRtWt_moves_iff (dst src size : UInt64)
    (hnot : t.ignoreAddr sp dst.toNat = false) (hdst : dst.toNat + size.toNat ≤ 2 ^ 64)
    (hsrc : src.toNat + size.toNat ≤ 2 ^ 64) (hpos : 1 ≤ size.toNat) (hsize : size.toNat < 2 ^ 32)
    {fuel : Nat} (hfuel : size.toNat ≤ fuel) :
    (∃ t', t.itmMemmoveRtWt b sp dst src size fuel = .ok (some dst, t') ∧
        (∀ i < size.toNat, t'.machine.mem (dst.toNat + i) = t.machine.mem (src.toNat + i)) ∧
        ∀ byte, ¬ (dst.toNat ≤ byte ∧ byte < dst.toNat + size.toNat) →
          t'.machine.mem byte = t.machine.mem byte) ↔
      (dst.toNat ≤ src.toNat ∨ ∀ i < size.toNat, dst.toNat - src.toNat ≤ i →
        t.machine.mem (src.toNat + (i - (dst.toNat - src.toNat))) =
          t.machine.mem (src.toNat + i)) ∧
      size.toNat ≤ (t.sei.cow p).room := by
  rcases Nat.lt_or_ge (t.sei.cow p).room size.toNat with hfull | hroom
  · refine iff_of_false ?_ fun h => absurd h.2 (by omega)
    rintro ⟨t', hrun, -⟩
    have hneeds := size_le_room_of_itmMemcpyRtWt hp hlt hint hnot hdst hpos hrun
    omega
  obtain ⟨t', ws, hrun, _, hmem, _⟩ :=
    itmMemcpyRtWt_fills hp hlt hint hnot hdst hsrc hpos hsize hroom hfuel
  have hcopied : ∀ i < size.toNat, t'.machine.mem (dst.toNat + i) =
      copiedByte t.machine.mem dst.toNat src.toNat (dst.toNat + i) := fun i hi => by
    rw [hmem, fill_inside (by omega)]
  have hothers : ∀ byte, ¬ (dst.toNat ≤ byte ∧ byte < dst.toNat + size.toNat) →
      t'.machine.mem byte = t.machine.mem byte := fun byte hbyte => by
    rw [hmem, fill_outside hbyte]
  have hmoved : (∃ t', t.itmMemmoveRtWt b sp dst src size fuel = .ok (some dst, t') ∧
        (∀ i < size.toNat, t'.machine.mem (dst.toNat + i) = t.machine.mem (src.toNat + i)) ∧
        ∀ byte, ¬ (dst.toNat ≤ byte ∧ byte < dst.toNat + size.toNat) →
          t'.machine.mem byte = t.machine.mem byte) ↔
      ∀ i < size.toNat, copiedByte t.machine.mem dst.toNat src.toNat (dst.toNat + i) =
        t.machine.mem (src.toNat + i) := by
    rw [itmMemmoveRtWt, hrun]
    constructor
    · rintro ⟨_, ⟨⟩, hrange, _⟩ i hi
      rw [← hcopied i hi, hrange i hi]
    · intro hrange
      exact ⟨t', rfl, fun i hi => (hcopied i hi).trans (hrange i hi), hothers⟩
  rw [hmoved, and_iff_left hroom]
  rcases Nat.lt_or_ge src.toNat dst.toNat with habove | hbelow
  · simp only [copiedByte, if_pos habove, Nat.add_sub_cancel_left]
    rw [repeats_iff (by omega)]
    exact ⟨.inr, fun h => h.resolve_left (by omega)⟩
  · refine iff_of_true (fun i _ => ?_) (.inl hbelow)
    rw [copiedByte, if_neg (by omega), Nat.add_sub_cancel_left]

/-- Two bytes moved down by one. -/
theorem itmMemmoveRtWt_moves_down :
    (firstPhase fun i => UInt8.ofNat i).ignoreAddr 0 32 = false ∧
      ∃ t', (firstPhase fun i => UInt8.ofNat i).itmMemmoveRtWt (Build.twoWay true false) 0
          32 33 2 2 = .ok (some 32, t') ∧
        (∀ i < 2, t'.machine.mem (32 + i) = UInt8.ofNat (33 + i)) ∧
        ∀ byte, ¬ (32 ≤ byte ∧ byte < 32 + 2) → t'.machine.mem byte = UInt8.ofNat byte :=
  ⟨rfl, (itmMemmoveRtWt_moves_iff rfl (by decide) (by decide) 32 33 2 rfl (by decide)
    (by decide) (by decide) (by decide) (le_refl _)).mpr
      ⟨.inl (by decide), by rw [room_firstPhase]; decide⟩⟩

/-- Two bytes moved up by one: the second becomes a copy of the first. -/
theorem itmMemmoveRtWt_smears_up :
    ∃ t', (firstPhase fun i => UInt8.ofNat i).itmMemmoveRtWt (Build.twoWay true false) 0
        33 32 2 2 = .ok (some 33, t') ∧ t'.machine.mem 33 = 32 ∧ t'.machine.mem 34 = 32 :=
  ⟨_, rfl, by decide, by decide⟩

/-! ## memmove_bsd -/

include hp hlt hint in
/-- The stores of `memmove_bsd` are those of a move exactly when it starts aligned. A handler makes
them, unless more of them are to be logged than the log has room for. -/
theorem zgttMemmove_moves_iff (sp : Nat) (dst src size : UInt64)
    (hdst : dst.toNat + size.toNat ≤ 2 ^ 64) (hsrc : src.toNat + size.toNat ≤ 2 ^ 64) :
    (if ((memmoveBsd dst src size).writes t.machine.mem).countP (t.logged sp) ≤
        (t.sei.cow p).room then
      ∃ t', t.zgttMemmove b sp dst src size = .ok (some dst, t') ∧
        t'.machine.mem =
          runWrites ((memmoveBsd dst src size).writes t.machine.mem) t.machine.mem
    else t.zgttMemmove b sp dst src size = .error (.fail "no space left" [])) ∧
      (Moves (memmoveBsd dst src size) dst.toNat src.toNat size.toNat t.machine.mem ↔
        StartsAligned dst.toNat src.toNat size.toNat) := by
  obtain ⟨heval, hmoves⟩ := memmoveBsd_spec t.machine.mem hdst hsrc
  refine ⟨?_, hmoves⟩
  have hrun := run_itmAccess hp hlt hint sp (memmoveBsd dst src size)
  rw [heval] at hrun
  split at hrun
  · next hfits =>
    obtain ⟨t', hrun, hstored⟩ := hrun
    rw [if_pos hfits]
    exact ⟨t', hrun, hstored.mem⟩
  · next hfull => rwa [if_neg hfull]

/-- Twelve bytes moved between aligned addresses. -/
theorem zgttMemmove_moves_words :
    (∃ t', (firstPhase fun i => UInt8.ofNat i).zgttMemmove (Build.twoWay true false) 0 32 40 12 =
        .ok (some 32, t')) ∧
      Moves (memmoveBsd 32 40 12) 32 40 12 fun i => UInt8.ofNat i := by
  obtain ⟨hrun, hmoves⟩ := zgttMemmove_moves_iff (t := firstPhase fun i => UInt8.ofNat i)
    (b := Build.twoWay true false) (p := 0) rfl (by decide) (by decide) 0 32 40 12 (by decide)
    (by decide)
  rw [if_pos (by rw [room_firstPhase]; decide)] at hrun
  obtain ⟨t', hrun, -⟩ := hrun
  exact ⟨⟨t', hrun⟩, hmoves.mpr (by decide)⟩

/-- One byte moved to an odd address: the byte behind it is overwritten as well. -/
theorem zgttMemmove_overruns_byte :
    ∃ t', (firstPhase fun i => UInt8.ofNat i).zgttMemmove (Build.twoWay true false) 0 33 64 1 =
        .ok (some 33, t') ∧ t'.machine.mem 33 = 64 ∧ t'.machine.mem 34 = 65 :=
  ⟨_, rfl, by decide, by decide⟩

end Memcpy

end Properties

end Tmi

/-! ## The word-wise memcpy -/

/-- The word-wise copy of `COW_WT` builds without `COW_APPEND_ONLY` is made of aligned writes
that cover the destination once, and does what the byte-wise copy does, also on the buffers. -/
theorem memcpyRtWtWords_agrees (dst src size : UInt64) (m : Mem) (fuel : Nat)
    (hsize : 4 ≤ size.toNat) (hlt : size.toNat < 2 ^ 32) (hdst : dst.toNat + size.toNat ≤ 2 ^ 64)
    (hsrc : src.toNat + size.toNat ≤ 2 ^ 64)
    (hapart : dst.toNat + size.toNat ≤ src.toNat ∨ src.toNat + size.toNat ≤ dst.toNat)
    (hfuel : size.toNat ≤ fuel) :
    (memcpyRtWtWords dst src size fuel).eval m = some dst ∧
      (∀ w ∈ (memcpyRtWtWords dst src size fuel).writes m, w.Aligned) ∧
      (∀ byte, coverCount ((memcpyRtWtWords dst src size fuel).writes m) byte =
        if dst.toNat ≤ byte ∧ byte < dst.toNat + size.toNat then 1 else 0) ∧
      runWrites ((memcpyRtWtWords dst src size fuel).writes m) m =
        runWrites ((memcpyRtWt dst src size fuel).writes m) m ∧
      ∀ (b : Build) (room : CowSei → Bool) (p : Nat) (s s' : CowSei) (r : Option UInt64),
        p < maxRedundancy → s.p = p → (s.cow p).WellFormed → s.mem = m →
        (memcpyRtWtWords dst src size fuel).run (CowSei.access b .wt room) s = .ok (r, s') →
        r = some dst ∧ s'.mem = runWrites ((memcpyRtWt dst src size fuel).writes m) m := by
  obtain ⟨ws, hruns, hmem, hcons, haligned⟩ :=
    (fillsUp_memcpyRtWtWords hdst hsrc hlt hapart m hsize (show 4 ≤ fuel by omega)).spec
  obtain ⟨vs, hruns', hmem', -, -⟩ :=
    (fillsUp_memcpyRtWt dst src m (show 0 < size.toNat by omega) hlt hdst hsrc hfuel).spec
  have hsame : runWrites ws m = runWrites vs m := by
    rw [hmem, hmem']
    funext byte
    by_cases hb : dst.toNat ≤ byte ∧ byte < dst.toNat + size.toNat
    · rw [fill_inside hb, fill_inside hb, copiedByte_of_apart (n := size.toNat) (by omega) (by omega)]
      rfl
    · rw [fill_outside hb, fill_outside hb]
  rw [hruns.eval, hruns.writes, hruns'.writes]
  refine ⟨rfl, haligned, fun byte => hcons.coverCount, hsame, ?_⟩
  intro b room p s s' r hp hphase hwell hstart hrun
  have haccess : (memcpyRtWtWords dst src size fuel).Accesses (fun _ _ => True)
      (fun t addr => addr % t.sizeof = 0) m :=
    Prog.accesses_of_writes (Q := Write.Aligned) (fun _ _ _ h => h) (hruns.writes ▸ haligned)
  have hempty : s.p = p ∧ (s.cow p).WellFormed ∧ s.mem = runWrites [] m := ⟨hphase, hwell, hstart⟩
  obtain ⟨hr, -, -, hend⟩ := (CowSei.tracks_wt b room m hp).run hempty haccess hrun
  rw [runWrites_nil, hruns.eval] at hr
  rw [runWrites_nil, hruns.writes, List.nil_append] at hend
  exact ⟨hr, hend.trans hsame⟩

/-- Thirteen bytes to an odd address. -/
theorem memcpyRtWtWords_agrees_thirteenBytes :
    (∀ w ∈ (memcpyRtWtWords 33 64 13 13).writes fun i => UInt8.ofNat i, w.Aligned) ∧
      runWrites ((memcpyRtWtWords 33 64 13 13).writes fun i => UInt8.ofNat i)
          (fun i => UInt8.ofNat i) 45 = 76 := by
  obtain ⟨-, haligned, -, hmem, -⟩ := memcpyRtWtWords_agrees 33 64 13 (fun i => UInt8.ofNat i)
    13 (by decide) (by decide) (by decide) (by decide) (by decide) (by decide)
  exact ⟨haligned, by rw [hmem]; decide⟩

end LibSei
