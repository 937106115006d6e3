-- SUMMARY: What `_ITM_memsetW` writes: three runs of writes end to end, with the pattern word in the middle.
import LibSei.Itm.Programs

/-!
# What _ITM_memsetW writes

Bytes up to the first address divisible by 8, words up to the last one, and bytes again. The
words hold a pattern that repeats the byte only when the sign extension of the byte does not
get in the way.
-/

namespace LibSei

open Memory

theorem UIntTy.sizeof_pos (t : UIntTy) : 0 < t.sizeof := by
  cases t <;> decide

/-- Clearing the low three bits of an address. -/
theorem toNat_and_not_seven (x : UInt64) : (x &&& ~~~7).toNat = x.toNat / 8 * 8 := by
  have hmask : (~~~7 : UInt64).toNat = (2 ^ 61 - 1) <<< 3 := by decide
  rw [UInt64.toNat_and, hmask, show x.toNat / 8 * 8 = x.toNat >>> 3 <<< 3 by
    rw [Nat.shiftRight_eq_div_pow, Nat.shiftLeft_eq]]
  have hx : x.toNat < 2 ^ 64 := x.toNat_lt
  apply Nat.eq_of_testBit_eq
  intro i
  simp only [Nat.testBit_and, Nat.testBit_shiftLeft, Nat.testBit_two_pow_sub_one,
    Nat.testBit_shiftRight]
  by_cases hi : 3 ≤ i
  · have hback : 3 + (i - 3) = i := by omega
    rw [hback]
    by_cases hhigh : i - 3 < 61
    · simp [hi, hhigh]
    · have hzero : x.toNat.testBit i = false :=
        Nat.testBit_lt_two_pow (hx.trans_le (Nat.pow_le_pow_right (by decide) (by omega)))
      simp [hzero]
  · simp [hi]

/-! ## A loop that puts one value after the other -/

/-- A loop that puts the value `v` at a pointer and moves the pointer on, as long as it is
below `hi`. -/
theorem fillsUp_putWhile {t : UIntTy} {v k fuel start hi : Nat} {step p : UInt64}
    {c : UInt64 → Bool} {Q : Write → Prop} {f : Nat → UInt8} {m : Mem}
    (hQ : ∀ j < k, Q (Write.ofNat (p.toNat + j * t.sizeof) t.sizeof v))
    (hstep : step.toNat = t.sizeof)
    (hc : ∀ q : UInt64, p.toNat ≤ q.toNat → q.toNat ≤ hi → (c q = true ↔ q.toNat < hi))
    (hhi : hi = p.toNat + k * t.sizeof) (hlt : hi < 2 ^ 64) (hfuel : k < fuel)
    (hstart : start ≤ p.toNat)
    (hf : ∀ j < k, ∀ i < t.sizeof, leByte v i = f (p.toNat + j * t.sizeof + i)) :
    ∃ q : UInt64, q.toNat = hi ∧ FillsUp Q f m start
      (Prog.whileLoop c (putNext t v step) fuel p) p.toNat q hi := by
  have hsize := t.sizeof_pos
  subst hhi
  have hbody : ∀ i (q : UInt64), i < k → q.toNat = p.toNat + i * t.sizeof →
      ∃ q' : UInt64, q'.toNat = p.toNat + (i + 1) * t.sizeof ∧
        FillsUp Q f m start (putNext t v step q) (p.toNat + i * t.sizeof) q'
          (p.toNat + (i + 1) * t.sizeof) := by
    intro i q hi hq
    have hle : (i + 1) * t.sizeof ≤ k * t.sizeof := Nat.mul_le_mul_right _ hi
    rw [Nat.succ_mul] at hle ⊢
    have hnext : (q + step).toNat = p.toNat + (i * t.sizeof + t.sizeof) := by
      rw [UInt64.toNat_add, hq, hstep, Nat.mod_eq_of_lt (by omega), Nat.add_assoc]
    refine ⟨q + step, hnext, ?_⟩
    rw [← hq, ← Nat.add_assoc, ← hq]
    have hput : FillsUp Q f m start (Prog.put t q.toNat v) q.toNat () (q.toNat + t.sizeof) := by
      refine fillsUp_put (hq ▸ hQ i hi) fun j hj => ?_
      rw [hf i hi j hj, hq]
    exact hput.bind (by omega) (fillsUp_ret (q + step) _)
  have htest : ∀ i (q : UInt64), i ≤ k → q.toNat = p.toNat + i * t.sizeof →
      (c q = true ↔ i < k) := by
    intro i q hi hq
    have hle : i * t.sizeof ≤ k * t.sizeof := Nat.mul_le_mul_right _ hi
    rw [hc q (by omega) (by omega), hq, Nat.add_lt_add_iff_left, Nat.mul_lt_mul_right hsize]
  have hloop := fillsUp_whileLoop hbody (fun i => hstart.trans (Nat.le_add_right _ _)) htest
    (Nat.zero_le k) (s := p) (by simp) (show k < 0 + fuel by omega)
  simpa using hloop

/-! ## The three loops -/

/-- The first address divisible by 8 from `s` on. -/
def wordAbove (s : Nat) : Nat := (s + 7) / 8 * 8

/-- The bytes `_ITM_memsetW` puts into `[s, e)`: the pattern word where a whole aligned word
lies in the range, the byte elsewhere. -/
def memsetByte (c : Int32) (s e b : Nat) : UInt8 :=
  if wordAbove s ≤ b ∧ b < e / 8 * 8 then leByte (memsetPattern c).toNat (b % 8)
  else c.toUInt32.toUInt8

/-- Where the first two loops of a memset of `[s, e)` end. -/
def memsetEnds (s e : Nat) : Nat × Nat :=
  (min e (wordAbove s), max (min e (wordAbove s)) (e / 8 * 8))

/-- How many writes `_ITM_memsetW` makes for `[s, e)` below `a`: bytes, words and bytes again. -/
def memsetBelow (s e a : Nat) : Nat :=
  min a (memsetEnds s e).1 - s + (min a (memsetEnds s e).2 - (memsetEnds s e).1) / 8 +
    (a - (memsetEnds s e).2)

/-- How many writes `_ITM_memsetW` makes for `[s, e)`. -/
def memsetEntries (s e : Nat) : Nat :=
  if wordAbove s ≤ e / 8 * 8 then wordAbove s - s + (e / 8 * 8 - wordAbove s) / 8 + e % 8
  else e - s

theorem memsetBelow_start (s e : Nat) (h : s ≤ e) : memsetBelow s e s = 0 := by
  simp only [memsetBelow, memsetEnds, wordAbove]
  omega

theorem memsetBelow_end (s e : Nat) (h : s ≤ e) : memsetBelow s e e = memsetEntries s e := by
  have hword : s ≤ wordAbove s ∧ wordAbove s % 8 = 0 := by
    unfold wordAbove
    omega
  simp only [memsetBelow, memsetEntries, memsetEnds]
  split <;> omega

theorem counts_memsetByte {s e a : Nat} (v : Nat) (hs : s ≤ a)
    (h : a < (memsetEnds s e).1 ∨ (memsetEnds s e).2 ≤ a) :
    (Write.ofNat a 1 v).Counts (memsetBelow s e) := by
  have hends : (memsetEnds s e).1 ≤ (memsetEnds s e).2 := le_max_left _ _
  show memsetBelow s e (a + 1) = memsetBelow s e a + 1
  unfold memsetBelow
  omega

theorem counts_memsetWord {s e a : Nat} (v : Nat) (hs : s ≤ (memsetEnds s e).1)
    (hlo : (memsetEnds s e).1 ≤ a) (hhi : a + 8 ≤ (memsetEnds s e).2) :
    (Write.ofNat a 8 v).Counts (memsetBelow s e) := by
  show memsetBelow s e (a + 8) = memsetBelow s e a + 1
  unfold memsetBelow
  omega

theorem leByte_uint8 (x : UInt8) {i : Nat} (hi : i < 1) : leByte x.toNat i = x := by
  obtain rfl : i = 0 := by omega
  simp [leByte]

/-- `p64`, after the correction. It wraps around for the last addresses of the address space,
where no whole word follows. -/
theorem memsetW_p64 (s : UInt64) {q : UInt64} (hq : s.toNat ≤ q.toNat) :
    q = (if s &&& ~~~7 < s then (s &&& ~~~7) + 8 else s &&& ~~~7) ↔ q.toNat = wordAbove s.toNat := by
  have hand := toNat_and_not_seven s
  have hs := s.toNat_lt
  have hqlt := q.toNat_lt
  rw [← UInt64.toNat_inj]
  unfold wordAbove
  split
  · next hlt =>
    rw [UInt64.lt_iff_toNat_lt, hand] at hlt
    rw [UInt64.toNat_add, hand, show (8 : UInt64).toNat = 8 from rfl]
    omega
  · next hge =>
    rw [UInt64.lt_iff_toNat_lt, hand] at hge
    rw [hand]
    omega

/-- A loop over single bytes, in front of the words or behind them. -/
theorem fillsUp_putBytes {c : Int32} {s e fuel hi : Nat} {p : UInt64} {test : UInt64 → Bool}
    (m : Mem) (htest : ∀ q : UInt64, p.toNat ≤ q.toNat → q.toNat ≤ hi →
      (test q = true ↔ q.toNat < hi))
    (hle : p.toNat ≤ hi) (hlt : hi < 2 ^ 64) (hfuel : hi - p.toNat < fuel) (hstart : s ≤ p.toNat)
    (hout : hi ≤ (memsetEnds s e).1 ∨ (memsetEnds s e).2 ≤ p.toNat) :
    ∃ q : UInt64, q.toNat = hi ∧
      FillsUp (Write.Counts (memsetBelow s e)) (memsetByte c s e) m s
        (Prog.whileLoop test (putNext .uint8 c.toUInt32.toUInt8.toNat 1) fuel p) p.toNat q hi := by
  have hword : (memsetEnds s e).1 ≤ wordAbove s := min_le_right _ _
  have hwords : e / 8 * 8 ≤ (memsetEnds s e).2 := le_max_right _ _
  refine fillsUp_putWhile (k := hi - p.toNat) (fun j hj => ?_) rfl htest
    (by simp only [UIntTy.sizeof]; omega) hlt hfuel hstart fun j hj i hi => ?_
  · exact counts_memsetByte _ (by omega) (by simp only [UIntTy.sizeof]; omega)
  · obtain rfl : i = 0 := by simpa [UIntTy.sizeof] using hi
    simp only [UIntTy.sizeof]
    rw [memsetByte, if_neg (by omega), leByte_uint8 _ (by decide)]

/-- `_ITM_memsetW` fills its range upwards. -/
theorem fillsUp_memsetW {s n : UInt64} (c : Int32) (m : Mem) (hsn : s.toNat + n.toNat < 2 ^ 64) :
    FillsUp (Write.Counts (memsetBelow s.toNat (s.toNat + n.toNat)))
      (memsetByte c s.toNat (s.toNat + n.toNat)) m s.toNat (memsetW s c n)
      s.toNat s (s.toNat + n.toNat) := by
  have he : (s + n).toNat = s.toNat + n.toNat := by
    rw [UInt64.toNat_add, Nat.mod_eq_of_lt hsn]
  have he64 : ((s + n) &&& ~~~7).toNat = (s.toNat + n.toNat) / 8 * 8 := by
    rw [toNat_and_not_seven, he]
  have hword : s.toNat ≤ wordAbove s.toNat ∧ wordAbove s.toNat < s.toNat + 8 ∧
      wordAbove s.toNat % 8 = 0 := by
    unfold wordAbove
    omega
  -- where the first two loops end
  obtain ⟨p1, hends1⟩ : ∃ p1, (memsetEnds s.toNat (s.toNat + n.toNat)).1 = p1 := ⟨_, rfl⟩
  obtain ⟨p2, hends2⟩ : ∃ p2, (memsetEnds s.toNat (s.toNat + n.toNat)).2 = p2 := ⟨_, rfl⟩
  have hp1 : p1 = min (s.toNat + n.toNat) (wordAbove s.toNat) := hends1.symm
  have hp2 : p2 = max p1 ((s.toNat + n.toNat) / 8 * 8) := by
    rw [← hends2, hp1]
    rfl
  obtain ⟨q1, hq1, hfirst⟩ : ∃ q1 : UInt64, q1.toNat = p1 ∧
      FillsUp (Write.Counts (memsetBelow s.toNat (s.toNat + n.toNat)))
        (memsetByte c s.toNat (s.toNat + n.toNat)) m s.toNat
        (Prog.whileLoop (fun p => decide (p < s + n) &&
            p != if s &&& ~~~7 < s then (s &&& ~~~7) + 8 else s &&& ~~~7)
          (putNext .uint8 c.toUInt32.toUInt8.toNat 1) (n.toNat + 1) s) s.toNat q1 p1 := by
    refine fillsUp_putBytes m (fun q hlo hhi => ?_) (by omega) (by omega) (by omega) (le_refl _)
      (.inl hends1.ge)
    have hp64 := memsetW_p64 s hlo
    rw [Bool.and_eq_true, decide_eq_true_eq, bne_iff_ne, ne_eq, hp64, UInt64.lt_iff_toNat_lt, he]
    omega
  obtain ⟨q2, hq2, hsecond⟩ : ∃ q2 : UInt64, q2.toNat = p2 ∧
      FillsUp (Write.Counts (memsetBelow s.toNat (s.toNat + n.toNat)))
        (memsetByte c s.toNat (s.toNat + n.toNat)) m s.toNat
        (Prog.whileLoop (fun p => decide (p < (s + n) &&& ~~~7))
          (putNext .uint64 (memsetPattern c).toNat 8) (n.toNat + 1) q1) q1.toNat q2 p2 := by
    refine fillsUp_putWhile (k := (p2 - p1) / 8) (fun j hj => ?_) rfl (fun q hlo hhi => ?_)
      (by simp only [UIntTy.sizeof]; omega) (by omega) (by omega) (by omega) fun j hj i hi => ?_
    · simp only [UIntTy.sizeof]
      exact counts_memsetWord _ (by omega) (by omega) (by omega)
    · rw [decide_eq_true_eq, UInt64.lt_iff_toNat_lt, he64]
      omega
    · simp only [UIntTy.sizeof] at hi ⊢
      rw [memsetByte, if_pos (by omega)]
      congr 1
      omega
  obtain ⟨q3, _, hthird⟩ : ∃ q3 : UInt64, q3.toNat = s.toNat + n.toNat ∧
      FillsUp (Write.Counts (memsetBelow s.toNat (s.toNat + n.toNat)))
        (memsetByte c s.toNat (s.toNat + n.toNat)) m s.toNat
        (Prog.whileLoop (fun p => decide (p < s + n))
          (putNext .uint8 c.toUInt32.toUInt8.toNat 1) (n.toNat + 1) q2) q2.toNat q3
          (s.toNat + n.toNat) := by
    refine fillsUp_putBytes m (fun q hlo hhi => ?_) (by omega) hsn (by omega) (by omega)
      (.inr (by omega))
    rw [decide_eq_true_eq, UInt64.lt_iff_toNat_lt, he]
  rw [hq1] at hsecond
  rw [hq2] at hthird
  exact hfirst.bind (le_refl _) (hsecond.bind (by omega)
    (hthird.bind (by omega) (fillsUp_ret s _)))

/-- The number of writes of a memset. -/
theorem length_writes_memsetW {s n : UInt64} (c : Int32) (m : Mem)
    (hsn : s.toNat + n.toNat < 2 ^ 64) :
    ((memsetW s c n).writes m).length = memsetEntries s.toNat (s.toNat + n.toNat) := by
  obtain ⟨ws, hruns, -, hcons, hcounts⟩ := (fillsUp_memsetW c m hsn).spec
  have hlength := hcons.length hcounts
  rw [memsetBelow_start _ _ (Nat.le_add_right _ _), memsetBelow_end _ _ (Nat.le_add_right _ _),
    Nat.zero_add] at hlength
  rw [hruns.writes, hlength]

/-- A range that reaches the end of the address space is not written at all. -/
theorem runs_memsetW_of_wrap {s n : UInt64} (c : Int32) (m : Mem)
    (h : 2 ^ 64 ≤ s.toNat + n.toNat) : (memsetW s c n).Runs m s [] := by
  have hs := s.toNat_lt
  have hn := n.toNat_lt
  have he : (s + n).toNat = s.toNat + n.toNat - 2 ^ 64 := by
    rw [UInt64.toNat_add]
    omega
  have hlt : ¬ s < s + n := by
    rw [UInt64.lt_iff_toNat_lt, he]
    omega
  have hlt64 : ¬ s < (s + n) &&& ~~~7 := by
    rw [UInt64.lt_iff_toNat_lt, toNat_and_not_seven, he]
    omega
  refine (Prog.runs_whileLoop_exit (by simp [hlt])).bind ((Prog.runs_whileLoop_exit ?_).bind
    ((Prog.runs_whileLoop_exit ?_).bind (Prog.runs_ret s _)))
  · simp [hlt64]
  · simp [hlt]

/-- The memset of the C library fills its range upwards. -/
theorem fillsUp_memset (s : UInt64) (c : Int32) (n : UInt64) (m : Mem) :
    FillsUp (fun _ => True) (fun _ => c.toUInt32.toUInt8) m s.toNat (memset s c n) s.toNat s
      (s.toNat + n.toNat) := by
  have hbody : ∀ k (i : Nat), k < n.toNat → i = k → ∃ i', i' = k + 1 ∧
      FillsUp (fun _ => True) (fun _ => c.toUInt32.toUInt8) m s.toNat (do
        Prog.put UIntTy.uint8 (s.toNat + i) c.toUInt32.toUInt8.toNat
        return i + 1) (s.toNat + k) i' (s.toNat + (k + 1)) := by
    rintro _ k _ rfl
    have hput : FillsUp (fun _ => True) (fun _ => c.toUInt32.toUInt8) m s.toNat
        (Prog.put UIntTy.uint8 (s.toNat + k) c.toUInt32.toUInt8.toNat) (s.toNat + k) ()
        (s.toNat + k + 1) := fillsUp_put (t := UIntTy.uint8) trivial fun i hi => leByte_uint8 _ hi
    exact ⟨k + 1, rfl, hput.bind (Nat.le_add_right _ _) (fillsUp_ret (k + 1) _)⟩
  obtain ⟨_, _, hloop⟩ := fillsUp_repeatTimes hbody (fun k => Nat.le_add_right _ _)
    (Nat.zero_le n.toNat) rfl
  exact hloop.bind (le_refl _) (fillsUp_ret s _)

/-! ## The pattern word -/

/-- The shifted copies of a number, joined. -/
def repeatByte (b : BitVec 64) : BitVec 64 :=
  b <<< 56 ||| b <<< 48 ||| b <<< 40 ||| b <<< 32 ||| b <<< 24 ||| b <<< 16 ||| b <<< 8 ||| b

theorem toBitVec_memsetPattern (c : Int32) :
    (memsetPattern c).toBitVec = repeatByte (c.toUInt32.toUInt8.toBitVec.signExtend 64) := by
  have hchar : c.toInt8.toInt64.toUInt64.toBitVec = c.toUInt32.toUInt8.toBitVec.signExtend 64 := by
    simp [BitVec.signExtend_eq_setWidth_of_le c.toBitVec (show 8 ≤ 32 by decide)]
  simp only [memsetPattern, repeatByte, UInt64.toBitVec_or, UInt64.toBitVec_shiftLeft, hchar]
  rfl

/-- A byte with a clear top bit is repeated. With the top bit set, the bits of its sign fill all
bytes but the first. -/
theorem leByte_repeatByte : ∀ (x : BitVec 8) (i : Fin 8),
    leByte (repeatByte (x.signExtend 64)).toNat i =
      if i.val = 0 ∨ x.toNat < 128 then UInt8.ofBitVec x else 255 := by
  decide +kernel

theorem leByte_memsetPattern (c : Int32) {i : Nat} (hi : i < 8) :
    leByte (memsetPattern c).toNat i =
      if i = 0 ∨ c.toUInt32.toUInt8.toNat < 128 then c.toUInt32.toUInt8 else 255 := by
  have hbyte := leByte_repeatByte c.toUInt32.toUInt8.toBitVec ⟨i, hi⟩
  rw [← toBitVec_memsetPattern] at hbyte
  exact hbyte

/-- The pattern repeats the byte unless the top bit is set and some other bit is not. -/
theorem memsetPattern_repeats_iff (c : Int32) :
    (∀ i < 8, leByte (memsetPattern c).toNat i = c.toUInt32.toUInt8) ↔
      c.toUInt32.toUInt8.toNat < 128 ∨ c.toUInt32.toUInt8 = 255 := by
  constructor
  · intro h
    have hone := h 1 (by decide)
    rw [leByte_memsetPattern c (by decide)] at hone
    split at hone
    · next hlow => exact .inl (hlow.resolve_left (by decide))
    · exact .inr hone.symm
  · intro h i hi
    rw [leByte_memsetPattern c hi]
    split
    · rfl
    · next hhigh => exact (h.resolve_left fun hlow => hhigh (.inr hlow)).symm

/-- The bytes put by `_ITM_memsetW` are the byte asked for, unless a whole aligned word of the
range receives a pattern that does not repeat it. -/
theorem memsetByte_eq_iff (c : Int32) (s e : Nat) :
    (∀ byte, s ≤ byte ∧ byte < e → memsetByte c s e byte = c.toUInt32.toUInt8) ↔
      c.toUInt32.toUInt8.toNat < 128 ∨ c.toUInt32.toUInt8 = 255 ∨ e < wordAbove s + 8 := by
  rw [← or_assoc, ← memsetPattern_repeats_iff]
  have hword : s ≤ wordAbove s ∧ wordAbove s % 8 = 0 := by
    unfold wordAbove
    omega
  constructor
  · intro h
    rcases Nat.lt_or_ge e (wordAbove s + 8) with hshort | hlong
    · exact .inr hshort
    · refine .inl fun i hi => ?_
      have hbyte := h (wordAbove s + i) (by omega)
      rw [memsetByte, if_pos (by omega), show (wordAbove s + i) % 8 = i by omega] at hbyte
      exact hbyte
  · rintro (hpattern | hshort) byte hbyte
    · unfold memsetByte
      split
      · exact hpattern _ (Nat.mod_lt _ (by decide))
      · rfl
    · rw [memsetByte, if_neg (by omega)]

end LibSei
