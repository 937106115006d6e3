-- SUMMARY: The adapted OpenBSD memmove of the library: its prologue, word loop and tail in both directions, and what they write.
import LibSei.Itm.Memcpy
import Mathlib.Data.Nat.Bitwise

/-!
# memmove_bsd

Handlers reach this function through `_ZGTt7memmove`. Each direction has a prologue that copies
bytes until the pointers are aligned, a loop over words and a loop over the remaining bytes. The
prologue counts down `n`, the other two loops take their counts from `length`, which still is
the whole length.
-/

namespace LibSei

open Memory

/-! ## The program -/

/-- `*dst++ = *src++`, for bytes or words. The state holds `dst` and `src`. -/
def copyForward (t : UIntTy) (s : UInt64 × UInt64) : Prog UIntTy (UInt64 × UInt64) := do
  Prog.copy t s.1.toNat s.2.toNat
  return (s.1 + UInt64.ofNat t.sizeof, s.2 + UInt64.ofNat t.sizeof)

/-- `*--dst = *--src`, for bytes or words. -/
def copyBackward (t : UIntTy) (s : UInt64 × UInt64) : Prog UIntTy (UInt64 × UInt64) := do
  let dst := s.1 - UInt64.ofNat t.sizeof
  let src := s.2 - UInt64.ofNat t.sizeof
  Prog.copy t dst.toNat src.toNat
  return (dst, src)

/-- The number of bytes the prologue of the forward copy makes, 0 if it is skipped. -/
def forwardPrologue (dst src length : UInt64) : UInt64 :=
  if (src ||| dst) &&& 7 ≠ 0 then
    if (src ^^^ dst) &&& 7 ≠ 0 ∨ length < 8 then length else 8 - (src &&& 7)
  else 0

/-- The number of bytes the prologue of the backward copy makes, for pointers behind the
ranges. -/
def backwardPrologue (dst src length : UInt64) : UInt64 :=
  if (src ||| dst) &&& 7 ≠ 0 then
    if (src ^^^ dst) &&& 7 ≠ 0 ∨ length ≤ 8 then length else src &&& 7
  else 0

/-- The three loops, for the copy in one direction. `TLOOP1` is only reached with `t > 0`. -/
def moveLoops (step : UIntTy → UInt64 × UInt64 → Prog UIntTy (UInt64 × UInt64))
    (prologue length : UInt64) (s : UInt64 × UInt64) : Prog UIntTy (UInt64 × UInt64) := do
  let s ← Prog.repeatTimes (step .uint8) prologue.toNat s
  let s ← Prog.repeatTimes (step .uint64) (length / 8).toNat s
  Prog.repeatTimes (step .uint8) (length &&& 7).toNat s

/-- `memmove_bsd`. -/
def memmoveBsd (dest src n : UInt64) : Prog UIntTy UInt64 :=
  let length := n
  if length = 0 ∨ dest = src then .ret dest
  else if dest < src then do
    let _ ← moveLoops copyForward (forwardPrologue dest src length) length (dest, src)
    return dest
  else do
    let dst := dest + n
    let src := src + n
    let _ ← moveLoops copyBackward (backwardPrologue dst src length) length (dst, src)
    return dest

/-! ## The prologues -/

theorem and_seven_toNat (x : UInt64) : (x &&& 7).toNat = x.toNat % 8 := by
  rw [UInt64.toNat_and]
  exact Nat.and_two_pow_sub_one_eq_mod x.toNat 3

theorem or_and_seven_eq_zero {x y : UInt64} :
    (x ||| y) &&& 7 = 0 ↔ x.toNat % 8 = 0 ∧ y.toNat % 8 = 0 := by
  rw [← UInt64.toNat_inj, UInt64.toNat_and, UInt64.toNat_or, Nat.and_or_distrib_right,
    ← UInt64.toNat_and, ← UInt64.toNat_and, and_seven_toNat, and_seven_toNat]
  exact Nat.or_eq_zero_iff

theorem xor_and_seven_eq_zero {x y : UInt64} :
    (x ^^^ y) &&& 7 = 0 ↔ x.toNat % 8 = y.toNat % 8 := by
  rw [← UInt64.toNat_inj, UInt64.toNat_and, UInt64.toNat_xor, Nat.and_xor_distrib_right,
    ← UInt64.toNat_and, ← UInt64.toNat_and, and_seven_toNat, and_seven_toNat]
  exact Nat.xor_eq_zero_iff

/-- The prologue is skipped exactly when both pointers are aligned, and never copies more than
the whole length. -/
theorem forwardPrologue_spec (dst src : UInt64) {length : UInt64} (hlen : 0 < length.toNat) :
    (forwardPrologue dst src length).toNat ≤ length.toNat ∧
      ((forwardPrologue dst src length).toNat = 0 ↔ src.toNat % 8 = 0 ∧ dst.toNat % 8 = 0) := by
  unfold forwardPrologue
  split
  · next hunal =>
    rw [ne_eq, or_and_seven_eq_zero] at hunal
    split
    · exact ⟨le_refl _, by omega⟩
    · next hsame =>
      rw [not_or, not_not, xor_and_seven_eq_zero, UInt64.lt_iff_toNat_lt,
        show (8 : UInt64).toNat = 8 from rfl] at hsame
      have hcount : (8 - (src &&& 7)).toNat = 8 - src.toNat % 8 := by
        rw [UInt64.toNat_sub_of_le, and_seven_toNat]
        · rfl
        · rw [UInt64.le_iff_toNat_le, and_seven_toNat, show (8 : UInt64).toNat = 8 from rfl]
          omega
      rw [hcount]
      omega
  · next hal =>
    rw [not_not, or_and_seven_eq_zero] at hal
    simp [hal]

theorem backwardPrologue_spec (dst src : UInt64) {length : UInt64} (hlen : 0 < length.toNat) :
    (backwardPrologue dst src length).toNat ≤ length.toNat ∧
      ((backwardPrologue dst src length).toNat = 0 ↔ src.toNat % 8 = 0 ∧ dst.toNat % 8 = 0) := by
  unfold backwardPrologue
  split
  · next hunal =>
    rw [ne_eq, or_and_seven_eq_zero] at hunal
    split
    · exact ⟨le_refl _, by omega⟩
    · next hsame =>
      rw [not_or, not_not, xor_and_seven_eq_zero, UInt64.le_iff_toNat_le,
        show (8 : UInt64).toNat = 8 from rfl] at hsame
      rw [and_seven_toNat]
      omega
  · next hal =>
    rw [not_not, or_and_seven_eq_zero] at hal
    simp [hal]

/-! ## How far the loops reach -/

section Reach

variable {step : UIntTy → UInt64 × UInt64 → Prog UIntTy (UInt64 × UInt64)}
  {adv : Nat → UInt64 × UInt64 → UInt64 × UInt64} {place : UIntTy → UInt64 × UInt64 → Nat}
  (hzero : ∀ s, adv 0 s = s) (hadd : ∀ i j s, adv j (adv i s) = adv (i + j) s)
  (hstep : ∀ t s m, ∃ w, (step t s).Runs m (adv t.sizeof s) [w] ∧ w.addr = place t s ∧
    w.size = t.sizeof)

include hzero hadd hstep

/-- A loop over steps makes one write at every place it passes. -/
theorem repeatTimes_reaches (t : UIntTy) (n : Nat) (s : UInt64 × UInt64) (m : Mem) :
    ∃ ws, (Prog.repeatTimes (step t) n s).Runs m (adv (n * t.sizeof) s) ws ∧
      ∀ j < n, ∃ w ∈ ws, w.addr = place t (adv (j * t.sizeof) s) ∧ w.size = t.sizeof := by
  induction n generalizing s m with
  | zero =>
    refine ⟨[], ?_, fun j hj => absurd hj (Nat.not_lt_zero j)⟩
    rw [Nat.zero_mul, hzero]
    exact Prog.runs_ret s m
  | succ n ih =>
    obtain ⟨w, hrun, haddr, hsize⟩ := hstep t s m
    obtain ⟨ws, hrest, hreach⟩ := ih (adv t.sizeof s) (runWrites [w] m)
    refine ⟨[w] ++ ws, ?_, fun j hj => ?_⟩
    · rw [hadd, Nat.add_comm, ← Nat.succ_mul] at hrest
      exact hrun.repeatTimes hrest
    · cases j with
      | zero => exact ⟨w, by simp, by rw [Nat.zero_mul, hzero, haddr], hsize⟩
      | succ j =>
        obtain ⟨v, hv, hvaddr, hvsize⟩ := hreach j (by omega)
        rw [hadd, Nat.add_comm, ← Nat.succ_mul] at hvaddr
        exact ⟨v, by simp [hv], hvaddr, hvsize⟩

/-- Behind the prologue the other two loops copy as many bytes as the whole length. Byte `x`
is counted in the direction of the copy. -/
theorem moveLoops_reaches {prologue length : UInt64} {x : Nat} (s : UInt64 × UInt64) (m : Mem)
    (hlo : prologue.toNat ≤ x) (hhi : x < prologue.toNat + length.toNat) :
    ∃ ws s', (moveLoops step prologue length s).Runs m s' ws ∧
      ∃ w ∈ ws, ∃ t k, k ≤ x ∧ x < k + w.size ∧ w.addr = place t (adv k s) ∧ w.size = t.sizeof := by
  have hwords : (length / 8).toNat = length.toNat / 8 := UInt64.toNat_div length 8
  obtain ⟨ws1, h1, _⟩ := repeatTimes_reaches hzero hadd hstep .uint8 prologue.toNat s m
  rw [show UIntTy.sizeof .uint8 = 1 from rfl, Nat.mul_one] at h1
  obtain ⟨ws2, h2, hreach2⟩ := repeatTimes_reaches hzero hadd hstep .uint64 (length / 8).toNat
    (adv prologue.toNat s) (runWrites ws1 m)
  obtain ⟨ws3, h3, hreach3⟩ := repeatTimes_reaches hzero hadd hstep .uint8 (length &&& 7).toNat
    (adv ((length / 8).toNat * 8) (adv prologue.toNat s)) (runWrites ws2 (runWrites ws1 m))
  refine ⟨ws1 ++ (ws2 ++ ws3), _, h1.bind (h2.bind h3), ?_⟩
  rw [hwords] at hreach2 hreach3
  rw [and_seven_toNat] at hreach3
  rcases Nat.lt_or_ge x (prologue.toNat + length.toNat / 8 * 8) with hin | htail
  · obtain ⟨w, hw, haddr, hsize⟩ := hreach2 ((x - prologue.toNat) / 8) (by omega)
    have hwidth : w.size = 8 := hsize
    rw [hadd] at haddr
    refine ⟨w, by simp [hw], _, _, ?_, ?_, haddr, hsize⟩
    · simp only [UIntTy.sizeof]
      omega
    · rw [hwidth]
      simp only [UIntTy.sizeof]
      omega
  · obtain ⟨w, hw, haddr, hsize⟩ :=
      hreach3 (x - prologue.toNat - length.toNat / 8 * 8) (by omega)
    have hwidth : w.size = 1 := hsize
    rw [hadd, hadd] at haddr
    refine ⟨w, by simp [hw], _, _, ?_, ?_, haddr, hsize⟩
    · simp only [UIntTy.sizeof]
      omega
    · rw [hwidth]
      simp only [UIntTy.sizeof]
      omega

end Reach

/-! ## The forward copy -/

/-- Both pointers moved up. -/
def advance (n : Nat) (s : UInt64 × UInt64) : UInt64 × UInt64 :=
  (s.1 + UInt64.ofNat n, s.2 + UInt64.ofNat n)

theorem advance_zero (s : UInt64 × UInt64) : advance 0 s = s := by
  simp [advance]

theorem advance_advance (i j : Nat) (s : UInt64 × UInt64) :
    advance j (advance i s) = advance (i + j) s := by
  simp only [advance, UInt64.ofNat_add, UInt64.add_assoc]

theorem copyForward_runs (t : UIntTy) (s : UInt64 × UInt64) (m : Mem) :
    ∃ w, (copyForward t s).Runs m (advance t.sizeof s) [w] ∧ w.addr = s.1.toNat ∧
      w.size = t.sizeof :=
  ⟨Write.ofNat s.1.toNat t.sizeof (load m s.2.toNat t.sizeof), ⟨rfl, rfl⟩, rfl, rfl⟩

theorem toNat_add_ofNat {p : UInt64} {k : Nat} (h : p.toNat + k < 2 ^ 64) :
    (p + UInt64.ofNat k).toNat = p.toNat + k := by
  rw [UInt64.toNat_add, UInt64.toNat_ofNat', Nat.mod_eq_of_lt (show k < 2 ^ 64 by omega),
    Nat.mod_eq_of_lt h]

section Forward

variable {dst src n : UInt64} (m : Mem) (hdst : dst.toNat < src.toNat)
  (hfit : src.toNat + n.toNat ≤ 2 ^ 64)

include hdst hfit

theorem fillsUp_copyForward {t : UIntTy} {k : Nat} (hk : k + t.sizeof ≤ n.toNat) :
    FillsUp (fun _ => True) (sourceByte m dst.toNat src.toNat) m dst.toNat
      (copyForward t (advance k (dst, src))) (dst.toNat + k) (advance (k + t.sizeof) (dst, src))
      (dst.toNat + (k + t.sizeof)) := by
  have hpos := t.sizeof_pos
  have hd : (advance k (dst, src)).1.toNat = dst.toNat + k :=
    toNat_add_ofNat (p := dst) (by omega)
  have hs : (advance k (dst, src)).2.toNat = src.toNat + k :=
    toNat_add_ofNat (p := src) (by omega)
  rw [← advance_advance, copyForward, hd, hs, ← Nat.add_assoc]
  have hcopy : FillsUp (fun _ => True) (sourceByte m dst.toNat src.toNat) m dst.toNat
      (Prog.copy t (dst.toNat + k) (src.toNat + k)) (dst.toNat + k) ()
      (dst.toNat + k + t.sizeof) := by
    refine fillsUp_copy (fun _ => trivial) fun j hj => ?_
    -- what is still to be read lies above what has been written
    rw [fill_outside (by omega), sourceByte]
    congr 1
    omega
  exact hcopy.bind (Nat.le_add_right _ _) (fillsUp_ret _ _)

/-- A loop of the forward copy that stays inside the range. -/
theorem fillsUp_forwardLoop (t : UIntTy) {k c : Nat} (hk : k + c * t.sizeof ≤ n.toNat) :
    FillsUp (fun _ => True) (sourceByte m dst.toNat src.toNat) m dst.toNat
      (Prog.repeatTimes (copyForward t) c (advance k (dst, src))) (dst.toNat + k)
      (advance (k + c * t.sizeof) (dst, src)) (dst.toNat + (k + c * t.sizeof)) := by
  have hbody : ∀ i s, i < c → s = advance (k + i * t.sizeof) (dst, src) →
      ∃ s', s' = advance (k + (i + 1) * t.sizeof) (dst, src) ∧
        FillsUp (fun _ => True) (sourceByte m dst.toNat src.toNat) m dst.toNat (copyForward t s)
          (dst.toNat + (k + i * t.sizeof)) s' (dst.toNat + (k + (i + 1) * t.sizeof)) := by
    rintro i _ hi rfl
    refine ⟨_, rfl, ?_⟩
    have hle : (i + 1) * t.sizeof ≤ c * t.sizeof := Nat.mul_le_mul_right _ hi
    rw [Nat.succ_mul] at hle ⊢
    rw [← Nat.add_assoc k]
    exact fillsUp_copyForward m hdst hfit (by omega)
  obtain ⟨_, rfl, hloop⟩ := fillsUp_repeatTimes hbody (fun i => Nat.le_add_right _ _)
    (Nat.zero_le c) (by rw [Nat.zero_mul, Nat.add_zero])
  rw [Nat.zero_mul, Nat.add_zero] at hloop
  exact hloop

/-- Without a prologue the forward copy fills the destination. -/
theorem fillsUp_moveForward {prologue : UInt64} (hprologue : prologue.toNat = 0) :
    ∃ s, FillsUp (fun _ => True) (sourceByte m dst.toNat src.toNat) m dst.toNat
      (moveLoops copyForward prologue n (dst, src)) dst.toNat s (dst.toNat + n.toNat) := by
  have hwords : (n / 8).toNat = n.toNat / 8 := UInt64.toNat_div n 8
  have htail : (n &&& 7).toNat = n.toNat % 8 := and_seven_toNat n
  have h2 := fillsUp_forwardLoop m hdst hfit .uint64 (k := 0) (c := n.toNat / 8)
    (by simp only [UIntTy.sizeof]; omega)
  have h3 := fillsUp_forwardLoop m hdst hfit .uint8 (k := n.toNat / 8 * 8) (c := n.toNat % 8)
    (by simp only [UIntTy.sizeof]; omega)
  simp only [UIntTy.sizeof, advance_zero, Nat.zero_add, Nat.mul_one, Nat.add_zero] at h2 h3
  rw [show n.toNat / 8 * 8 + n.toNat % 8 = n.toNat by omega] at h3
  refine ⟨advance n.toNat (dst, src), ?_⟩
  rw [moveLoops, hprologue, hwords, htail]
  exact (fillsUp_ret (dst, src) _).bind (le_refl _) (h2.bind (le_refl _) h3)

end Forward

/-! ## The backward copy -/

/-- Both pointers moved down. -/
def retreat (n : Nat) (s : UInt64 × UInt64) : UInt64 × UInt64 :=
  (s.1 - UInt64.ofNat n, s.2 - UInt64.ofNat n)

theorem retreat_zero (s : UInt64 × UInt64) : retreat 0 s = s := by
  simp [retreat]

theorem sub_ofNat_sub_ofNat (p : UInt64) (i j : Nat) :
    p - UInt64.ofNat i - UInt64.ofNat j = p - UInt64.ofNat (i + j) := by
  rw [UInt64.ofNat_add]
  grind

theorem retreat_retreat (i j : Nat) (s : UInt64 × UInt64) :
    retreat j (retreat i s) = retreat (i + j) s := by
  simp only [retreat, sub_ofNat_sub_ofNat]

theorem copyBackward_runs (t : UIntTy) (s : UInt64 × UInt64) (m : Mem) :
    ∃ w, (copyBackward t s).Runs m (retreat t.sizeof s) [w] ∧
      w.addr = (s.1 - UInt64.ofNat t.sizeof).toNat ∧ w.size = t.sizeof :=
  ⟨Write.ofNat (s.1 - UInt64.ofNat t.sizeof).toNat t.sizeof
      (load m (s.2 - UInt64.ofNat t.sizeof).toNat t.sizeof), ⟨rfl, rfl⟩, rfl, rfl⟩

/-- A pointer behind a range, moved down by `k`. -/
theorem toNat_add_sub_ofNat {p n : UInt64} {k : Nat} (hfit : p.toNat + n.toNat ≤ 2 ^ 64)
    (hpos : 0 < k) (hk : k ≤ p.toNat + n.toNat + 2 ^ 64) :
    (p + n - UInt64.ofNat k).toNat =
      if k ≤ p.toNat + n.toNat then p.toNat + n.toNat - k else 2 ^ 64 + (p.toNat + n.toNat) - k := by
  rw [UInt64.toNat_sub, UInt64.toNat_add, UInt64.toNat_ofNat']
  split <;> omega

section Backward

variable {dst src n : UInt64} (m : Mem) (hdst : src.toNat < dst.toNat)
  (hfit : dst.toNat + n.toNat ≤ 2 ^ 64)

include hdst hfit

theorem fillsDown_copyBackward {t : UIntTy} {k : Nat} (hk : k + t.sizeof ≤ n.toNat) :
    FillsDown (sourceByte m dst.toNat src.toNat) m (dst.toNat + n.toNat)
      (copyBackward t (retreat k (dst + n, src + n))) (dst.toNat + n.toNat - k)
      (retreat (k + t.sizeof) (dst + n, src + n)) (dst.toNat + n.toNat - (k + t.sizeof)) := by
  have hpos := t.sizeof_pos
  have hd : ((retreat k (dst + n, src + n)).1 - UInt64.ofNat t.sizeof).toNat =
      dst.toNat + n.toNat - (k + t.sizeof) := by
    rw [retreat, sub_ofNat_sub_ofNat, toNat_add_sub_ofNat hfit (by omega) (by omega),
      if_pos (by omega)]
  have hs : ((retreat k (dst + n, src + n)).2 - UInt64.ofNat t.sizeof).toNat =
      src.toNat + n.toNat - (k + t.sizeof) := by
    rw [retreat, sub_ofNat_sub_ofNat, toNat_add_sub_ofNat (by omega) (by omega) (by omega),
      if_pos (by omega)]
  rw [← retreat_retreat]
  dsimp only [copyBackward]
  rw [hd, hs]
  have hcopy : FillsDown (sourceByte m dst.toNat src.toNat) m (dst.toNat + n.toNat)
      (Prog.copy t (dst.toNat + n.toNat - (k + t.sizeof)) (src.toNat + n.toNat - (k + t.sizeof)))
      (dst.toNat + n.toNat - k) () (dst.toNat + n.toNat - (k + t.sizeof)) := by
    refine fillsDown_copy (by simp only [sizeof_eq]; omega) fun j hj => ?_
    have hj : j < t.sizeof := hj
    -- what is still to be read lies below what has been written
    rw [fill_outside (by omega), sourceByte]
    congr 1
    omega
  exact hcopy.bind (Nat.sub_le _ _) (fillsDown_ret _ _)

/-- A loop of the backward copy that stays inside the range. -/
theorem fillsDown_backwardLoop (t : UIntTy) {k c : Nat} (hk : k + c * t.sizeof ≤ n.toNat) :
    FillsDown (sourceByte m dst.toNat src.toNat) m (dst.toNat + n.toNat)
      (Prog.repeatTimes (copyBackward t) c (retreat k (dst + n, src + n)))
      (dst.toNat + n.toNat - k) (retreat (k + c * t.sizeof) (dst + n, src + n))
      (dst.toNat + n.toNat - (k + c * t.sizeof)) := by
  have hbody : ∀ i s, i < c → s = retreat (k + i * t.sizeof) (dst + n, src + n) →
      ∃ s', s' = retreat (k + (i + 1) * t.sizeof) (dst + n, src + n) ∧
        FillsDown (sourceByte m dst.toNat src.toNat) m (dst.toNat + n.toNat) (copyBackward t s)
          (dst.toNat + n.toNat - (k + i * t.sizeof)) s'
          (dst.toNat + n.toNat - (k + (i + 1) * t.sizeof)) := by
    rintro i _ hi rfl
    refine ⟨_, rfl, ?_⟩
    have hle : (i + 1) * t.sizeof ≤ c * t.sizeof := Nat.mul_le_mul_right _ hi
    rw [Nat.succ_mul] at hle ⊢
    rw [← Nat.add_assoc k]
    exact fillsDown_copyBackward m hdst hfit (by omega)
  obtain ⟨_, rfl, hloop⟩ := fillsDown_repeatTimes hbody (fun i => Nat.sub_le _ _)
    (Nat.zero_le c) (by rw [Nat.zero_mul, Nat.add_zero])
  rw [Nat.zero_mul, Nat.add_zero] at hloop
  exact hloop

/-- Without a prologue the backward copy fills the destination. -/
theorem fillsDown_moveBackward {prologue : UInt64} (hprologue : prologue.toNat = 0) :
    ∃ s, FillsDown (sourceByte m dst.toNat src.toNat) m (dst.toNat + n.toNat)
      (moveLoops copyBackward prologue n (dst + n, src + n)) (dst.toNat + n.toNat) s dst.toNat := by
  have hwords : (n / 8).toNat = n.toNat / 8 := UInt64.toNat_div n 8
  have htail : (n &&& 7).toNat = n.toNat % 8 := and_seven_toNat n
  have h2 := fillsDown_backwardLoop m hdst hfit .uint64 (k := 0) (c := n.toNat / 8)
    (by simp only [UIntTy.sizeof]; omega)
  have h3 := fillsDown_backwardLoop m hdst hfit .uint8 (k := n.toNat / 8 * 8) (c := n.toNat % 8)
    (by simp only [UIntTy.sizeof]; omega)
  simp only [UIntTy.sizeof, retreat_zero, Nat.zero_add, Nat.mul_one, Nat.sub_zero] at h2 h3
  rw [show n.toNat / 8 * 8 + n.toNat % 8 = n.toNat by omega, Nat.add_sub_cancel] at h3
  refine ⟨retreat n.toNat (dst + n, src + n), ?_⟩
  rw [moveLoops, hprologue, hwords, htail]
  exact (fillsDown_ret (dst + n, src + n) _).bind (le_refl _) (h2.bind (le_refl _) h3)

end Backward

/-! ## The whole function -/

/-- The program moves the bytes and writes nothing else. -/
def Moves (p : Prog UIntTy UInt64) (dst src n : Nat) (m : Mem) : Prop :=
  (∀ i < n, runWrites (p.writes m) m (dst + i) = m (src + i)) ∧
    ∀ w ∈ p.writes m, ∀ b, w.Covers b → dst ≤ b ∧ b < dst + n

/-- The pointers from which the copy starts, at the lower or the upper end of the ranges, are
divisible by the word size. With nothing to copy there are none. -/
def StartsAligned (dst src n : Nat) : Prop :=
  n = 0 ∨ dst = src ∨ (dst < src ∧ dst % 8 = 0 ∧ src % 8 = 0) ∨
    (src < dst ∧ (dst + n) % 8 = 0 ∧ (src + n) % 8 = 0)

instance (dst src n : Nat) : Decidable (StartsAligned dst src n) :=
  inferInstanceAs (Decidable (_ ∨ _ ∨ _ ∨ _))

section Whole

variable {dst src n : UInt64} {m : Mem} {ws : List Write}

/-- A range filled from the source is a moved one. -/
theorem moves_of_fill {p : Prog UIntTy UInt64} {dst src n : Nat} (hwrites : p.writes m = ws)
    (hmem : runWrites ws m = fill (sourceByte m dst src) dst (dst + n) m)
    (hcov : ∀ b, (∃ w ∈ ws, w.Covers b) ↔ dst ≤ b ∧ b < dst + n) : Moves p dst src n m := by
  refine ⟨fun i hi => ?_, fun w hw b hb => ?_⟩
  · rw [hwrites, hmem, fill_inside ⟨Nat.le_add_right _ _, by omega⟩, sourceByte,
      Nat.add_sub_cancel_left]
  · rw [hwrites] at hw
    exact (hcov b).mp ⟨w, hw, hb⟩

theorem moveForward_spec (m : Mem) (hn : 0 < n.toNat) (hlt : dst.toNat < src.toNat)
    (hfit : src.toNat + n.toNat ≤ 2 ^ 64) :
    ∃ ws s, (moveLoops copyForward (forwardPrologue dst src n) n (dst, src)).Runs m s ws ∧
      (dst.toNat % 8 = 0 ∧ src.toNat % 8 = 0 →
        runWrites ws m = fill (sourceByte m dst.toNat src.toNat) dst.toNat (dst.toNat + n.toNat) m ∧
        ∀ b, (∃ w ∈ ws, w.Covers b) ↔ dst.toNat ≤ b ∧ b < dst.toNat + n.toNat) ∧
      (¬ (dst.toNat % 8 = 0 ∧ src.toNat % 8 = 0) →
        ∃ w ∈ ws, w.Covers (dst.toNat + n.toNat)) := by
  obtain ⟨hle, hzero⟩ := forwardPrologue_spec dst src hn
  by_cases hal : src.toNat % 8 = 0 ∧ dst.toNat % 8 = 0
  · obtain ⟨s, hfill⟩ := fillsUp_moveForward m hlt hfit (hzero.mpr hal)
    obtain ⟨ws, hrun, hmem, hcons, _⟩ := hfill.spec
    exact ⟨ws, s, hrun, fun _ => ⟨hmem, fun b => hcons.covers_iff⟩,
      fun hunal => absurd hal.symm hunal⟩
  · have hpos : 0 < (forwardPrologue dst src n).toNat := Nat.pos_of_ne_zero fun h => hal (hzero.mp h)
    obtain ⟨ws, s, hrun, w, hw, t, k, hk, hcov, haddr, _⟩ := moveLoops_reaches advance_zero
      advance_advance copyForward_runs (dst, src) m hle
      (show n.toNat < (forwardPrologue dst src n).toNat + n.toNat by omega)
    have haddr : w.addr = dst.toNat + k := haddr.trans (toNat_add_ofNat (p := dst) (by omega))
    refine ⟨ws, s, hrun, fun h => absurd h.symm hal, fun _ => ⟨w, hw, ?_⟩⟩
    constructor <;> omega

theorem moveBackward_spec (m : Mem) (hn : 0 < n.toNat) (hlt : src.toNat < dst.toNat)
    (hfit : dst.toNat + n.toNat ≤ 2 ^ 64) :
    ∃ ws s, (moveLoops copyBackward (backwardPrologue (dst + n) (src + n) n) n
        (dst + n, src + n)).Runs m s ws ∧
      ((dst.toNat + n.toNat) % 8 = 0 ∧ (src.toNat + n.toNat) % 8 = 0 →
        runWrites ws m = fill (sourceByte m dst.toNat src.toNat) dst.toNat (dst.toNat + n.toNat) m ∧
        ∀ b, (∃ w ∈ ws, w.Covers b) ↔ dst.toNat ≤ b ∧ b < dst.toNat + n.toNat) ∧
      (¬ ((dst.toNat + n.toNat) % 8 = 0 ∧ (src.toNat + n.toNat) % 8 = 0) →
        ∃ w ∈ ws, ∃ b, w.Covers b ∧ ¬ (dst.toNat ≤ b ∧ b < dst.toNat + n.toNat)) := by
  obtain ⟨hle, hzero⟩ := backwardPrologue_spec (dst + n) (src + n) hn
  have hal' : (src + n).toNat % 8 = 0 ∧ (dst + n).toNat % 8 = 0 ↔
      (dst.toNat + n.toNat) % 8 = 0 ∧ (src.toNat + n.toNat) % 8 = 0 := by
    rw [UInt64.toNat_add, UInt64.toNat_add]
    omega
  rw [hal'] at hzero
  by_cases hal : (dst.toNat + n.toNat) % 8 = 0 ∧ (src.toNat + n.toNat) % 8 = 0
  · obtain ⟨s, hfill⟩ := fillsDown_moveBackward m hlt hfit (hzero.mpr hal)
    obtain ⟨ws, hrun, hmem, hcov⟩ := hfill.spec
    exact ⟨ws, s, hrun, fun _ => ⟨hmem, hcov⟩, fun hunal => absurd hal hunal⟩
  · have hpos : 0 < (backwardPrologue (dst + n) (src + n) n).toNat :=
      Nat.pos_of_ne_zero fun h => hal (hzero.mp h)
    obtain ⟨ws, s, hrun, w, hw, t, k, hk, hcov, haddr, hsize⟩ := moveLoops_reaches retreat_zero
      retreat_retreat copyBackward_runs (dst + n, src + n) m hle
      (show n.toNat < (backwardPrologue (dst + n) (src + n) n).toNat + n.toNat by omega)
    refine ⟨ws, s, hrun, fun h => absurd h hal, fun _ => ⟨w, hw, ?_⟩⟩
    have hn' := n.toNat_lt
    have hbytes : t.sizeof ≤ 8 := by cases t <;> decide
    rw [retreat, sub_ofNat_sub_ofNat, toNat_add_sub_ofNat hfit (by omega) (by omega)] at haddr
    split at haddr
    -- the write covers the byte below the destination, or wraps around at address 0
    · exact ⟨dst.toNat - 1, ⟨by omega, by omega⟩, by omega⟩
    · exact ⟨w.addr + (w.size - 1), ⟨by omega, by omega⟩, by omega⟩

/-- `memmove_bsd` always returns, and is a memmove exactly when it starts aligned. -/
theorem memmoveBsd_spec (m : Mem) (hdst : dst.toNat + n.toNat ≤ 2 ^ 64)
    (hsrc : src.toNat + n.toNat ≤ 2 ^ 64) :
    (memmoveBsd dst src n).eval m = some dst ∧
      (Moves (memmoveBsd dst src n) dst.toNat src.toNat n.toNat m ↔
        StartsAligned dst.toNat src.toNat n.toNat) := by
  dsimp only [memmoveBsd]
  split
  · next hnothing =>
    rw [← UInt64.toNat_inj, ← UInt64.toNat_inj, UInt64.toNat_zero] at hnothing
    refine ⟨rfl, iff_of_true ⟨fun i hi => ?_, fun w hw => by cases hw⟩ ?_⟩
    · have heq : dst.toNat = src.toNat := by omega
      rw [heq]
      rfl
    · unfold StartsAligned
      omega
  · next hsome =>
    rw [← UInt64.toNat_inj, ← UInt64.toNat_inj, UInt64.toNat_zero] at hsome
    have hn : 0 < n.toNat := by omega
    split
    · next hlt =>
      have hlt := UInt64.lt_iff_toNat_lt.mp hlt
      obtain ⟨ws, s, hrun, haligned, hunaligned⟩ := moveForward_spec m hn hlt hsrc
      have hruns := hrun.bind_ret dst
      refine ⟨hruns.eval, ?_, fun h => ?_⟩
      · intro hmoves
        by_contra hcond
        obtain ⟨w, hw, hcov⟩ := hunaligned fun hal => hcond (.inr (.inr (.inl ⟨hlt, hal⟩)))
        have := hmoves.2 w (hruns.writes ▸ hw) _ hcov
        omega
      · obtain ⟨hmem, hcov⟩ := haligned (by unfold StartsAligned at h; omega)
        exact moves_of_fill hruns.writes hmem hcov
    · next hge =>
      rw [UInt64.lt_iff_toNat_lt] at hge
      have hlt : src.toNat < dst.toNat := by omega
      obtain ⟨ws, s, hrun, haligned, hunaligned⟩ := moveBackward_spec m hn hlt hdst
      have hruns := hrun.bind_ret dst
      refine ⟨hruns.eval, ?_, fun h => ?_⟩
      · intro hmoves
        by_contra hcond
        obtain ⟨w, hw, b, hcov, hout⟩ := hunaligned fun hal => hcond (.inr (.inr (.inr ⟨hlt, hal⟩)))
        exact hout (hmoves.2 w (hruns.writes ▸ hw) b hcov)
      · obtain ⟨hmem, hcov⟩ := haligned (by unfold StartsAligned at h; omega)
        exact moves_of_fill hruns.writes hmem hcov

end Whole

end LibSei
