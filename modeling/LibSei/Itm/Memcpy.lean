-- SUMMARY: What `_ITM_memcpyRtWt` writes, byte by byte and word by word, and which copies never end.
import LibSei.Itm.Memset

/-!
# What _ITM_memcpyRtWt writes

The byte loop tests its index after each byte and keeps it in 32 bits. It runs upwards, so a
destination above an overlapping source receives the first bytes of the source again and
again. The word-wise copy goes through five stages and ends with the same memory when the
ranges do not overlap.
-/

namespace LibSei

open Memory

variable {dst src size : UInt64} {m : Mem} {start : Nat} {f : Nat → UInt8} {Q : Write → Prop}

/-- What an upward copy leaves at a byte of the destination: the byte of the source, or, where
the destination starts inside the source, one of its first `dst - src` bytes. -/
def copiedByte (m : Mem) (dst src b : Nat) : UInt8 :=
  if src < dst then m (src + (b - dst) % (dst - src)) else m (src + (b - dst))

/-- The byte an upward copy finds at the next place of the source is the one it is to leave at
the next place of the destination. -/
theorem copiedByte_next (m : Mem) (dst src k : Nat) :
    fill (copiedByte m dst src) dst (dst + k) m (src + k) = copiedByte m dst src (dst + k) := by
  rcases Nat.lt_or_ge src dst with hlt | hge
  · rcases Nat.lt_or_ge (src + k) dst with hbelow | habove
    · rw [fill_outside (by omega), copiedByte, if_pos hlt, Nat.add_sub_cancel_left,
        Nat.mod_eq_of_lt (by omega)]
    · rw [fill_inside (by omega), copiedByte, copiedByte, if_pos hlt, if_pos hlt,
        Nat.add_sub_cancel_left, show src + k - dst = k - (dst - src) by omega,
        ← Nat.mod_eq_sub_mod (by omega)]
  · rw [fill_outside (by omega), copiedByte, if_neg (by omega), Nat.add_sub_cancel_left]

/-- Below the distance of the ranges, and for a destination below the source, the copy is
exact. -/
theorem copiedByte_of_apart {m : Mem} {dst src n b : Nat} (h : dst ≤ src ∨ src + n ≤ dst)
    (hb : dst ≤ b ∧ b < dst + n) : copiedByte m dst src b = m (src + (b - dst)) := by
  unfold copiedByte
  split
  · rw [Nat.mod_eq_of_lt (by omega)]
  · rfl

/-- A copy between ranges that lie apart. -/
theorem fill_copiedByte_of_apart {m : Mem} {dst src n i : Nat} (h : dst + n ≤ src ∨ src + n ≤ dst)
    (hi : i < n) : fill (copiedByte m dst src) dst (dst + n) m (dst + i) = m (src + i) := by
  rw [fill_inside (by omega), copiedByte_of_apart (n := n) (by omega) (by omega),
    Nat.add_sub_cancel_left]

/-- The memcpy of the C library fills its destination upwards. -/
theorem fillsUp_memcpy (dst src n : UInt64) (m : Mem) :
    FillsUp (fun _ => True) (copiedByte m dst.toNat src.toNat) m dst.toNat (memcpy dst src n)
      dst.toNat dst (dst.toNat + n.toNat) := by
  have hbody : ∀ k (i : Nat), k < n.toNat → i = k → ∃ i', i' = k + 1 ∧
      FillsUp (fun _ => True) (copiedByte m dst.toNat src.toNat) m dst.toNat (do
        Prog.copy UIntTy.uint8 (dst.toNat + i) (src.toNat + i)
        return i + 1) (dst.toNat + k) i' (dst.toNat + (k + 1)) := by
    rintro _ k _ rfl
    have hcopy : FillsUp (fun _ => True) (copiedByte m dst.toNat src.toNat) m dst.toNat
        (Prog.copy UIntTy.uint8 (dst.toNat + k) (src.toNat + k)) (dst.toNat + k) ()
        (dst.toNat + k + 1) := by
      refine fillsUp_copy (t := UIntTy.uint8) (fun _ => trivial) fun i hi => ?_
      obtain rfl : i = 0 := by simpa [UIntTy.sizeof] using hi
      exact copiedByte_next m dst.toNat src.toNat k
    exact ⟨k + 1, rfl, hcopy.bind (Nat.le_add_right _ _) (fillsUp_ret (k + 1) _)⟩
  obtain ⟨_, _, hloop⟩ := fillsUp_repeatTimes hbody (fun k => Nat.le_add_right _ _)
    (Nat.zero_le n.toNat) rfl
  exact hloop.bind (le_refl _) (fillsUp_ret dst _)

/-! ## One step -/

theorem toNat_add_index {p : UInt64} {i : UInt32} (h : p.toNat + i.toNat < 2 ^ 64) :
    (p + i.toUInt64).toNat = p.toNat + i.toNat := by
  rw [UInt64.toNat_add, UInt32.toNat_toUInt64, Nat.mod_eq_of_lt h]

theorem fillsUp_copyAt {t : UIntTy} {i : UInt32} (hdst : dst.toNat + i.toNat < 2 ^ 64)
    (hsrc : src.toNat + i.toNat < 2 ^ 64)
    (hQ : ∀ v, Q (Write.ofNat (dst.toNat + i.toNat) t.sizeof v))
    (hf : ∀ j < t.sizeof, fill f start (dst.toNat + i.toNat) m (src.toNat + i.toNat + j) =
      f (dst.toNat + i.toNat + j)) :
    FillsUp Q f m start (copyAt t dst src i) (dst.toNat + i.toNat) ()
      (dst.toNat + i.toNat + t.sizeof) := by
  rw [copyAt, toNat_add_index hdst, toNat_add_index hsrc]
  exact fillsUp_copy hQ hf

/-! ## The byte loop -/

theorem toNat_index_add {i : UInt32} {k : Nat} (n : UInt32) (hi : i.toNat = k)
    (hk : k + n.toNat < 2 ^ 32) : (i + n).toNat = k + n.toNat := by
  rw [UInt32.toNat_add, hi, Nat.mod_eq_of_lt hk]

/-- One iteration of a byte loop. -/
theorem fillsUp_copyByteAt {i : UInt32} {k : Nat} (hi : i.toNat = k) (hk : k + 1 < 2 ^ 32)
    (hdst : dst.toNat + k < 2 ^ 64) (hsrc : src.toNat + k < 2 ^ 64) (hstart : start ≤ dst.toNat + k)
    (hQ : ∀ v, Q (Write.ofNat (dst.toNat + k) 1 v))
    (hf : fill f start (dst.toNat + k) m (src.toNat + k) = f (dst.toNat + k)) :
    ∃ i' : UInt32, i'.toNat = k + 1 ∧
      FillsUp Q f m start (copyByteAt dst src i) (dst.toNat + k) i' (dst.toNat + (k + 1)) := by
  subst hi
  have hcopy : FillsUp Q f m start (copyAt .uint8 dst src i) (dst.toNat + i.toNat) ()
      (dst.toNat + i.toNat + 1) := by
    refine fillsUp_copyAt (t := .uint8) hdst hsrc hQ fun j hj => ?_
    obtain rfl : j = 0 := by simpa [UIntTy.sizeof] using hj
    exact hf
  exact ⟨i + 1, toNat_index_add 1 rfl hk, hcopy.bind hstart (fillsUp_ret (i + 1) _)⟩

/-- The test of the byte loops. -/
theorem index_lt_size {i : UInt32} {k : Nat} (hi : i.toNat = k) :
    decide (i.toUInt64 < size) = true ↔ k < size.toNat := by
  rw [decide_eq_true_eq, UInt64.lt_iff_toNat_lt, UInt32.toNat_toUInt64, hi]

/-- The byte loop fills the destination upwards. -/
theorem fillsUp_memcpyRtWt (dst src : UInt64) {fuel : Nat} (m : Mem) (hpos : 0 < size.toNat)
    (hlt : size.toNat < 2 ^ 32) (hdst : dst.toNat + size.toNat ≤ 2 ^ 64)
    (hsrc : src.toNat + size.toNat ≤ 2 ^ 64) (hfuel : size.toNat ≤ fuel) :
    FillsUp (Write.Counts id) (copiedByte m dst.toNat src.toNat) m dst.toNat
      (memcpyRtWt dst src size fuel) dst.toNat dst (dst.toNat + size.toNat) := by
  have hbody : ∀ k (i : UInt32), k < size.toNat → i.toNat = k →
      ∃ i' : UInt32, i'.toNat = k + 1 ∧
        FillsUp (Write.Counts id) (copiedByte m dst.toNat src.toNat) m dst.toNat
          (copyByteAt dst src i) (dst.toNat + k) i' (dst.toNat + (k + 1)) := fun k i hk hi =>
    fillsUp_copyByteAt hi (by omega) (by omega) (by omega) (Nat.le_add_right _ _)
      (fun _ => rfl) (copiedByte_next m dst.toNat src.toNat k)
  obtain ⟨i, _, hloop⟩ := fillsUp_doWhile hbody (fun k => Nat.le_add_right _ _)
    (fun k i _ hi => index_lt_size hi) hpos (s := 0) rfl (show size.toNat ≤ 0 + fuel by omega)
  exact hloop.bind (le_refl _) (fillsUp_ret dst _)

/-- Wherever the source lies, the byte loop passes the destination once. -/
theorem consecutive_memcpyRtWt (dst src : UInt64) {fuel : Nat} (m : Mem) (hpos : 0 < size.toNat)
    (hlt : size.toNat < 2 ^ 32) (hdst : dst.toNat + size.toNat ≤ 2 ^ 64)
    (hfuel : size.toNat ≤ fuel) :
    ∃ ws, (memcpyRtWt dst src size fuel).Runs m dst ws ∧
      Consecutive ws dst.toNat (dst.toNat + size.toNat) ∧ ws.length = size.toNat := by
  have hloop : ∀ fuel (i : UInt32) (m : Mem), i.toNat < size.toNat → size.toNat ≤ i.toNat + fuel →
      ∃ i' ws, (Prog.doWhile (copyByteAt dst src) (fun i => decide (i.toUInt64 < size)) fuel i).Runs
          m i' ws ∧ Consecutive ws (dst.toNat + i.toNat) (dst.toNat + size.toNat) ∧
        i.toNat + ws.length = size.toNat := by
    intro fuel
    induction fuel with
    | zero => omega
    | succ fuel ih =>
      intro i m hi hfuel
      have hnext : (i + 1).toNat = i.toNat + 1 := toNat_index_add 1 rfl (by
        rw [show (1 : UInt32).toNat = 1 from rfl]
        omega)
      obtain ⟨v, hbyte⟩ : ∃ v, (copyByteAt dst src i).Runs m (i + 1)
          [Write.ofNat (dst.toNat + i.toNat) 1 v] := by
        rw [← toNat_add_index (by omega)]
        exact ⟨_, rfl, rfl⟩
      rcases Nat.lt_or_ge (i.toNat + 1) size.toNat with hmore | hlast
      · obtain ⟨i', ws, hrest, hcons, hlength⟩ := ih (i + 1)
          (runWrites [Write.ofNat (dst.toNat + i.toNat) 1 v] m) (by omega) (by omega)
        rw [hnext] at hcons hlength
        refine ⟨i', _, hbyte.doWhile ((index_lt_size rfl).mpr (by omega)) hrest, ⟨rfl, hcons⟩, ?_⟩
        rw [List.length_append, List.length_singleton]
        omega
      · have hexit : decide ((i + 1).toUInt64 < size) = false := by
          rw [← Bool.not_eq_true, index_lt_size rfl]
          omega
        refine ⟨_, _, hbyte.doWhile_exit hexit, ⟨rfl, ?_⟩, ?_⟩
        · show dst.toNat + i.toNat + 1 = dst.toNat + size.toNat
          omega
        · rw [List.length_singleton]
          omega
  obtain ⟨i, ws, hrun, hcons, hlength⟩ := hloop fuel 0 m hpos (show size.toNat ≤ 0 + fuel by omega)
  exact ⟨ws, hrun.bind_ret dst, hcons, (Nat.zero_add _).symm.trans hlength⟩

/-- The test comes after the first byte, so that a copy of no bytes makes one write. -/
theorem runs_memcpyRtWt_zero (m : Mem) (fuel : Nat) :
    (memcpyRtWt dst src 0 (fuel + 1)).Runs m dst
      [Write.ofNat dst.toNat 1 (load m src.toNat 1)] := by
  have hdst : dst + (0 : UInt32).toUInt64 = dst := UInt64.add_zero dst
  have hsrc : src + (0 : UInt32).toUInt64 = src := UInt64.add_zero src
  have hbyte : (copyByteAt dst src 0).Runs m 1 [Write.ofNat dst.toNat 1 (load m src.toNat 1)] := by
    rw [copyByteAt, copyAt, hdst, hsrc]
    exact ⟨rfl, rfl⟩
  exact (hbyte.doWhile_exit rfl).bind (Prog.runs_ret dst _)

/-- However many bytes are asked for, at least one is written. -/
theorem consecutive_memcpyRtWt_max (dst src : UInt64) {fuel : Nat} (m : Mem)
    (hlt : size.toNat < 2 ^ 32) (hdst : dst.toNat + size.toNat ≤ 2 ^ 64) (hfuel : size.toNat < fuel) :
    ∃ ws, (memcpyRtWt dst src size fuel).Runs m dst ws ∧
      Consecutive ws dst.toNat (dst.toNat + max 1 size.toNat) ∧ ws.length = max 1 size.toNat := by
  rcases Nat.eq_zero_or_pos size.toNat with hzero | hpos
  · obtain rfl : size = 0 := UInt64.toNat_inj.mp hzero
    obtain ⟨fuel, rfl⟩ := Nat.exists_eq_succ_of_ne_zero (show fuel ≠ 0 by omega)
    exact ⟨_, runs_memcpyRtWt_zero m fuel, ⟨rfl, rfl⟩, rfl⟩
  · rw [Nat.max_eq_right hpos]
    exact consecutive_memcpyRtWt dst src m hpos hlt hdst (by omega)

/-- A copy that comes to its end was followed for as many iterations as it has bytes. -/
theorem fuel_of_eval_memcpyRtWt {m : Mem} {fuel : Nat} {r : UInt64}
    (h : (memcpyRtWt dst src size fuel).eval m = some r) : max 1 size.toNat ≤ fuel := by
  have hloop : ∀ fuel (i i' : UInt32) (m : Mem), (Prog.doWhile (copyByteAt dst src)
      (fun i => decide (i.toUInt64 < size)) fuel i).eval m = some i' →
      1 ≤ fuel ∧ size.toNat ≤ i.toNat + fuel := by
    intro fuel
    induction fuel with
    | zero =>
      intro _ _ _ h
      cases h
    | succ fuel ih =>
      intro i i' m h
      -- the index may wrap around, which only makes the loop longer
      have hnext : (i + 1).toNat ≤ i.toNat + 1 := by
        rw [UInt32.toNat_add]
        exact Nat.mod_le _ _
      have hbody : (copyByteAt dst src i).eval m = some (i + 1) := rfl
      rw [Prog.doWhile, Prog.eval_bind, hbody, Option.bind_some] at h
      split at h
      · have hrest := ih (i + 1) i' _ h
        omega
      · next hexit =>
        rw [index_lt_size rfl] at hexit
        omega
  rw [memcpyRtWt, Prog.eval_bind] at h
  obtain ⟨i', hi', -⟩ := Option.bind_eq_some_iff.mp h
  have hfuel := hloop fuel 0 i' m hi'
  have hzero : (0 : UInt32).toNat = 0 := rfl
  omega

/-- The 32-bit index stays below a size of `2 ^ 32` or more. -/
theorem eval_memcpyRtWt_of_large (m : Mem) (fuel : Nat) (h : 2 ^ 32 ≤ size.toNat) :
    (memcpyRtWt dst src size fuel).eval m = none := by
  have hloop : ∀ (i : UInt32) (m : Mem), (Prog.doWhile (copyByteAt dst src)
      (fun i => decide (i.toUInt64 < size)) fuel i).eval m = none := by
    induction fuel with
    | zero => exact fun _ _ => rfl
    | succ fuel ih =>
      intro i m
      have hbody : (copyByteAt dst src i).eval m = some (i + 1) := rfl
      have htest : decide ((i + 1).toUInt64 < size) = true :=
        (index_lt_size rfl).mpr ((i + 1).toNat_lt.trans_le h)
      rw [Prog.doWhile, Prog.eval_bind, hbody, Option.bind_some, if_pos htest]
      exact ih (i + 1) _
  rw [memcpyRtWt, Prog.eval_bind, hloop 0 m]
  rfl

/-! ## The word-wise copy -/

/-- The byte of the source that belongs to a byte of the destination. -/
def sourceByte (m : Mem) (dst src b : Nat) : UInt8 := m (src + (b - dst))

section Words

variable (hdst : dst.toNat + size.toNat ≤ 2 ^ 64) (hsrc : src.toNat + size.toNat ≤ 2 ^ 64)
  (hlt : size.toNat < 2 ^ 32)
  (hapart : dst.toNat + size.toNat ≤ src.toNat ∨ src.toNat + size.toNat ≤ dst.toNat)

include hapart in
/-- A source apart from the destination is not changed by the copy. -/
theorem sourceByte_next (m : Mem) {k j : Nat} (hk : k + j < size.toNat) :
    fill (sourceByte m dst.toNat src.toNat) dst.toNat (dst.toNat + k) m (src.toNat + k + j) =
      sourceByte m dst.toNat src.toNat (dst.toNat + k + j) := by
  rw [fill_outside (by omega), sourceByte]
  congr 1
  omega

include hdst hsrc hapart in
/-- A step of the word-wise copy. -/
theorem fillsUp_wordAt (m : Mem) {t : UIntTy} {i : UInt32} {k : Nat} (hi : i.toNat = k)
    (hk : k + t.sizeof ≤ size.toNat) (hal : (dst.toNat + k) % t.sizeof = 0) :
    FillsUp Write.Aligned (sourceByte m dst.toNat src.toNat) m dst.toNat (copyAt t dst src i)
      (dst.toNat + k) () (dst.toNat + (k + t.sizeof)) := by
  subst hi
  have hpos := t.sizeof_pos
  rw [← Nat.add_assoc]
  refine fillsUp_copyAt (by omega) (by omega) (fun _ => hal) fun j hj => ?_
  exact sourceByte_next hapart m (by omega)

include hdst hsrc hlt hapart in
/-- A byte step. -/
theorem fillsUp_byteAt (m : Mem) {i : UInt32} {k : Nat} (hi : i.toNat = k) (hk : k < size.toNat) :
    ∃ i' : UInt32, i'.toNat = k + 1 ∧
      FillsUp Write.Aligned (sourceByte m dst.toNat src.toNat) m dst.toNat (copyByteAt dst src i)
        (dst.toNat + k) i' (dst.toNat + (k + 1)) :=
  fillsUp_copyByteAt hi (by omega) (by omega) (by omega) (Nat.le_add_right _ _)
    (fun _ => Nat.mod_one _) (sourceByte_next hapart m (j := 0) hk)

include hdst hsrc hlt hapart in
theorem fillsUp_alignBytes (m : Mem) {fuel : Nat} (hsize : 4 ≤ size.toNat) (hfuel : 3 ≤ fuel) :
    ∃ i : UInt32, i.toNat < 4 ∧ (dst.toNat + i.toNat) % 4 = 0 ∧
      FillsUp Write.Aligned (sourceByte m dst.toNat src.toNat) m dst.toNat (alignBytes dst src fuel)
        dst.toNat i (dst.toNat + i.toNat) := by
  have hunal : (dst % 4).toUInt32.toNat = dst.toNat % 4 := by
    rw [UInt64.toNat_toUInt32, UInt64.toNat_mod, show (4 : UInt64).toNat = 4 from rfl]
    omega
  dsimp only [alignBytes]
  split
  · next hpos =>
    have hpos : 0 < dst.toNat % 4 := by
      rw [gt_iff_lt, UInt32.lt_iff_toNat_lt, hunal] at hpos
      exact hpos
    have hcount : (4 - (dst % 4).toUInt32).toNat = 4 - dst.toNat % 4 := by
      rw [UInt32.toNat_sub_of_le, hunal]
      · rfl
      · rw [UInt32.le_iff_toNat_le, hunal, show (4 : UInt32).toNat = 4 from rfl]
        omega
    have htest : ∀ k (i : UInt32), k ≤ 4 - dst.toNat % 4 → i.toNat = k →
        (decide (i < 4 - (dst % 4).toUInt32) = true ↔ k < 4 - dst.toNat % 4) := by
      intro k i _ hi
      rw [decide_eq_true_eq, UInt32.lt_iff_toNat_lt, hcount, hi]
    obtain ⟨i, hi, hloop⟩ := fillsUp_doWhile
      (fun k i hk hi => fillsUp_byteAt hdst hsrc hlt hapart m hi (by omega))
      (fun k => Nat.le_add_right _ _) htest (show 0 < 4 - dst.toNat % 4 by omega) (s := 0) rfl
      (show 4 - dst.toNat % 4 ≤ 0 + fuel by omega)
    refine ⟨i, by omega, by omega, ?_⟩
    rw [hi]
    exact hloop
  · next hzero =>
    have hzero : dst.toNat % 4 = 0 := by
      rw [gt_iff_lt, UInt32.lt_iff_toNat_lt, hunal] at hzero
      exact Nat.eq_zero_of_not_pos hzero
    exact ⟨0, by decide, hzero, fillsUp_ret 0 _⟩

/-- How far the copy has come before the 64-bit steps: `k` bytes are copied, and what is left
is either copied in aligned steps or shorter than one of them. -/
structure Aligning (dst size : UInt64) (i len : UInt32) : Prop where
  rest : i.toNat + len.toNat = size.toNat
  four : (dst.toNat + i.toNat) % 4 = 0
  eight : (dst.toNat + i.toNat) % 8 = 0 ∨ len.toNat < 4

include hdst hsrc hlt hapart

theorem fillsUp_alignWord (m : Mem) {i len : UInt32} (hlen : i.toNat + len.toNat = size.toNat)
    (hfour : (dst.toNat + i.toNat) % 4 = 0) :
    ∃ i' len' : UInt32, Aligning dst size i' len' ∧
      FillsUp Write.Aligned (sourceByte m dst.toNat src.toNat) m dst.toNat
        (alignWord dst src i len) (dst.toNat + i.toNat) (i', len') (dst.toNat + i'.toNat) := by
  have hfit : dst.toNat + i.toNat < 2 ^ 64 ∨ len.toNat = 0 := by omega
  have hunal : ((dst + i.toUInt64) % 8).toUInt32.toNat = (dst.toNat + i.toNat) % 8 := by
    rw [UInt64.toNat_toUInt32, UInt64.toNat_mod, UInt64.toNat_add, UInt32.toNat_toUInt64,
      show (8 : UInt64).toNat = 8 from rfl]
    omega
  dsimp only [alignWord]
  split
  · next hstep =>
    have hstep : 0 < (dst.toNat + i.toNat) % 8 ∧ 4 ≤ len.toNat := by
      rw [gt_iff_lt, ge_iff_le, UInt32.lt_iff_toNat_lt, UInt32.le_iff_toNat_le, hunal] at hstep
      exact hstep
    have hi : (i + 4).toNat = i.toNat + 4 := toNat_index_add 4 rfl (by
      rw [show (4 : UInt32).toNat = 4 from rfl]
      omega)
    have hl : (len - 4).toNat = len.toNat - 4 := UInt32.toNat_sub_of_le _ _
      (UInt32.le_iff_toNat_le.mpr hstep.2)
    refine ⟨i + 4, len - 4, ⟨by omega, by omega, by omega⟩, ?_⟩
    have hcopy := fillsUp_wordAt hdst hsrc hapart m (t := .uint32) (i := i) rfl
      (by simp only [UIntTy.sizeof]; omega) hfour
    rw [hi]
    exact hcopy.bind (Nat.le_add_right _ _) (fillsUp_ret (i + 4, len - 4) _)
  · next hstay =>
    have hstay : ¬ (0 < (dst.toNat + i.toNat) % 8 ∧ 4 ≤ len.toNat) := by
      rw [gt_iff_lt, ge_iff_le, UInt32.lt_iff_toNat_lt, UInt32.le_iff_toNat_le, hunal] at hstay
      exact hstay
    exact ⟨i, len, ⟨hlen, hfour, by omega⟩, fillsUp_ret (i, len) _⟩

theorem fillsUp_copyWords (m : Mem) {i len : UInt32} (h : Aligning dst size i len) :
    ∃ i' len' : UInt32, i'.toNat + len'.toNat = size.toNat ∧ len'.toNat < 8 ∧
      (dst.toNat + i'.toNat) % 4 = 0 ∧
      FillsUp Write.Aligned (sourceByte m dst.toNat src.toNat) m dst.toNat
        (copyWords dst src (len / 8) i len) (dst.toNat + i.toNat) (i', len')
        (dst.toNat + i'.toNat) := by
  have hcount : (len / 8).toNat = len.toNat / 8 := UInt32.toNat_div len 8
  have hbody : ∀ k (s : UInt32 × UInt32), k < len.toNat / 8 →
      s.1.toNat = i.toNat + 8 * k ∧ s.2.toNat = len.toNat - 8 * k →
      ∃ s' : UInt32 × UInt32, (s'.1.toNat = i.toNat + 8 * (k + 1) ∧
          s'.2.toNat = len.toNat - 8 * (k + 1)) ∧
        FillsUp Write.Aligned (sourceByte m dst.toNat src.toNat) m dst.toNat
          (copyWordAt dst src s)
          (dst.toNat + (i.toNat + 8 * k)) s' (dst.toNat + (i.toNat + 8 * (k + 1))) := by
    rintro k ⟨j, l⟩ hk ⟨hj, hl⟩
    have hlen := h.rest
    have height := h.eight
    have hj' : (j + 8).toNat = i.toNat + 8 * k + 8 := toNat_index_add 8 hj (by
      rw [show (8 : UInt32).toNat = 8 from rfl]
      omega)
    have hl' : (l - 8).toNat = len.toNat - 8 * (k + 1) := by
      rw [UInt32.toNat_sub_of_le _ _ (UInt32.le_iff_toNat_le.mpr _), hl]
      · rw [show (8 : UInt32).toNat = 8 from rfl]
        omega
      · rw [hl, show (8 : UInt32).toNat = 8 from rfl]
        omega
    refine ⟨(j + 8, l - 8), ⟨by omega, hl'⟩, ?_⟩
    have hcopy := fillsUp_wordAt hdst hsrc hapart m (t := .uint64) hj
      (by simp only [UIntTy.sizeof]; omega) (by simp only [UIntTy.sizeof]; omega)
    exact hcopy.bind (Nat.le_add_right _ _) (fillsUp_ret (j + 8, l - 8) _)
  obtain ⟨⟨i', len'⟩, ⟨hi', hlen'⟩, hloop⟩ := fillsUp_repeatTimes hbody
    (fun k => Nat.le_add_right _ _) (Nat.zero_le _) (s := (i, len)) ⟨rfl, rfl⟩
  have hlen := h.rest
  have hfour := h.four
  dsimp only at hi' hlen'
  refine ⟨i', len', by omega, by omega, by omega, ?_⟩
  rw [copyWords, hcount, hi']
  exact hloop

theorem fillsUp_tailWord (m : Mem) {i len : UInt32} (hlen : i.toNat + len.toNat = size.toNat)
    (hshort : len.toNat < 8) (hfour : (dst.toNat + i.toNat) % 4 = 0) :
    ∃ i' : UInt32, i'.toNat ≤ size.toNat ∧ size.toNat < i'.toNat + 4 ∧
      FillsUp Write.Aligned (sourceByte m dst.toNat src.toNat) m dst.toNat
        (tailWord dst src i len) (dst.toNat + i.toNat) i' (dst.toNat + i'.toNat) := by
  unfold tailWord
  split
  · next hstep =>
    have hstep : 4 ≤ len.toNat := UInt32.le_iff_toNat_le.mp hstep
    have hi : (i + 4).toNat = i.toNat + 4 := toNat_index_add 4 rfl (by
      rw [show (4 : UInt32).toNat = 4 from rfl]
      omega)
    refine ⟨i + 4, by omega, by omega, ?_⟩
    have hcopy := fillsUp_wordAt hdst hsrc hapart m (t := .uint32) (i := i) rfl
      (by simp only [UIntTy.sizeof]; omega) hfour
    rw [hi]
    exact hcopy.bind (Nat.le_add_right _ _) (fillsUp_ret (i + 4) _)
  · next hstay =>
    have hstay : ¬ 4 ≤ len.toNat := fun h => hstay (UInt32.le_iff_toNat_le.mpr h)
    exact ⟨i, by omega, by omega, fillsUp_ret i _⟩

theorem fillsUp_tailBytes (m : Mem) {fuel : Nat} {i : UInt32} (hle : i.toNat ≤ size.toNat)
    (hshort : size.toNat < i.toNat + 4) (hfuel : 4 ≤ fuel) :
    ∃ i' : UInt32, FillsUp Write.Aligned (sourceByte m dst.toNat src.toNat) m dst.toNat
      (tailBytes dst src size fuel i) (dst.toNat + i.toNat) i' (dst.toNat + size.toNat) := by
  have hbody : ∀ k (i : UInt32), k < size.toNat → i.toNat = k → ∃ i' : UInt32, i'.toNat = k + 1 ∧
      FillsUp Write.Aligned (sourceByte m dst.toNat src.toNat) m dst.toNat (copyByteAt dst src i)
        (dst.toNat + k) i' (dst.toNat + (k + 1)) :=
    fun k i hk hi => fillsUp_byteAt hdst hsrc hlt hapart m hi hk
  obtain ⟨i', _, hloop⟩ := fillsUp_whileLoop hbody (fun k => Nat.le_add_right _ _)
    (fun k i _ hi => index_lt_size hi) hle (s := i) rfl (show size.toNat < i.toNat + fuel by omega)
  exact ⟨i', hloop⟩

/-- The word-wise copy fills the destination upwards, by aligned writes. -/
theorem fillsUp_memcpyRtWtWords (m : Mem) {fuel : Nat} (hsize : 4 ≤ size.toNat) (hfuel : 4 ≤ fuel) :
    FillsUp Write.Aligned (sourceByte m dst.toNat src.toNat) m dst.toNat
      (memcpyRtWtWords dst src size fuel) dst.toNat dst (dst.toNat + size.toNat) := by
  obtain ⟨i1, hi1, hfour, h1⟩ := fillsUp_alignBytes hdst hsrc hlt hapart m hsize
    (show 3 ≤ fuel by omega)
  have hlen : i1.toNat + (size.toUInt32 - i1).toNat = size.toNat := by
    have htrunc : size.toUInt32.toNat = size.toNat := by
      rw [UInt64.toNat_toUInt32, Nat.mod_eq_of_lt hlt]
    rw [UInt32.toNat_sub_of_le _ _ (UInt32.le_iff_toNat_le.mpr (by omega)), htrunc]
    omega
  obtain ⟨i2, len2, haligning, h2⟩ := fillsUp_alignWord hdst hsrc hlt hapart m hlen hfour
  obtain ⟨i3, len3, hlen3, hshort3, hfour3, h3⟩ := fillsUp_copyWords hdst hsrc hlt hapart m haligning
  obtain ⟨i4, hle4, hshort4, h4⟩ := fillsUp_tailWord hdst hsrc hlt hapart m hlen3 hshort3 hfour3
  obtain ⟨i5, h5⟩ := fillsUp_tailBytes hdst hsrc hlt hapart m hle4 hshort4 hfuel
  have hwords : size ≥ 4 := UInt64.le_iff_toNat_le.mpr (show (4 : UInt64).toNat ≤ size.toNat from hsize)
  rw [memcpyRtWtWords, if_pos hwords]
  exact h1.bind (le_refl _) (h2.bind (Nat.le_add_right _ _) (h3.bind (Nat.le_add_right _ _)
    (h4.bind (Nat.le_add_right _ _) (h5.bind (Nat.le_add_right _ _) (fillsUp_ret dst _)))))

end Words

end LibSei
