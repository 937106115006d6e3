-- SUMMARY: What strtol and its variants return for every string: the number in it, cut off at the bounds of the type.
import LibSei.Libc.Strtol
import LibSei.Numerals.Positional

/-!
# Numbers read from strings

A string is taken apart without a look at any bounds: white space, a sign, the mark of a hexadecimal
number, digits. The conversions return this number cut off at the bounds of the type, and report an
error when they cut.
-/

namespace LibSei

open Control Numerals

/-! ## The number in a string -/

/-- The value of a byte as a digit, in any base that is large enough. -/
def digitValue? (ch : UInt8) : Option Nat :=
  if 48 ≤ ch.toNat ∧ ch.toNat ≤ 57 then some (ch.toNat - 48)
  else if 65 ≤ ch.toNat ∧ ch.toNat ≤ 90 then some (ch.toNat - 55)
  else if 97 ≤ ch.toNat ∧ ch.toNat ≤ 122 then some (ch.toNat - 87)
  else none

/-- The value of a byte as a digit in base `b`. -/
def digitIn? (b : Nat) (ch : UInt8) : Option Nat := (digitValue? ch).filter fun d => d < b

/-- White space. -/
def isSpace (ch : UInt8) : Bool := ch = 32 ∨ 9 ≤ ch.toNat ∧ ch.toNat ≤ 13

/-- A number as it is written, with what follows it in the string. -/
structure Numeral where
  neg : Bool
  base : Nat
  digits : List Nat
  rest : List UInt8

namespace Numeral

/-- The string behind white space and a sign. -/
def unsignedPart (nptr : List UInt8) : List UInt8 :=
  let t := nptr.dropWhile isSpace
  if t.head? = some 45 ∨ t.head? = some 43 then t.tail else t

/-- The number is written with `0x`, where that is allowed. -/
def IsHex (base : Nat) (t : List UInt8) : Prop :=
  (base = 0 ∨ base = 16) ∧ t.head? = some 48 ∧ (t[1]? = some 120 ∨ t[1]? = some 88)

instance (base : Nat) (t : List UInt8) : Decidable (IsHex base t) := by
  unfold IsHex
  infer_instance

/-- The base that the number is in. -/
def baseOf (base : Nat) (t : List UInt8) : Nat :=
  if IsHex base t then 16
  else if base = 0 then (if t.head? = some 48 then 8 else 10) else base

/-- The string from the first digit on. -/
def digitPart (base : Nat) (t : List UInt8) : List UInt8 := if IsHex base t then t.drop 2 else t

def read (base : Nat) (nptr : List UInt8) : Numeral :=
  let t := unsignedPart nptr
  let b := baseOf base t
  { neg := (nptr.dropWhile isSpace).head? = some 45
    base := b
    digits := ((digitPart base t).takeWhile fun ch => (digitIn? b ch).isSome).filterMap (digitIn? b)
    rest := (digitPart base t).dropWhile fun ch => (digitIn? b ch).isSome }

/-- The number without its sign. -/
def magnitude (x : Numeral) : Nat := value x.base x.digits

/-- The number. -/
def toInt (x : Numeral) : Int := if x.neg then -x.magnitude else x.magnitude

/-- Where the number ends in the string it was read from; at its beginning if it has no digits. -/
def endIn (x : Numeral) (nptr : List UInt8) : Nat :=
  if x.digits = [] then 0 else nptr.length - x.rest.length

/-- The number as a `long`. -/
def toLong (x : Numeral) (nptr : List UInt8) : Conversion where
  value := max Strto.longMin (min Strto.longMax x.toInt)
  errno := if Strto.longMin ≤ x.toInt ∧ x.toInt ≤ Strto.longMax then none else some .erange
  endptr := x.endIn nptr

/-- The number as an `unsigned long`: a number that fits is negated modulo `2 ^ 64`. -/
def toULong (x : Numeral) (nptr : List UInt8) : Conversion where
  value := if x.magnitude ≤ Strto.ulongMax then x.toInt % 2 ^ 64 else Strto.ulongMax
  errno := if x.magnitude ≤ Strto.ulongMax then none else some .erange
  endptr := x.endIn nptr

end Numeral

namespace Strto

/-! ## Characters -/

/-- `c` has been read from the byte `ch`, with a cast or without. -/
def Reads (c : Int) (ch : UInt8) : Prop := c = unsignedChar ch ∨ c = plainChar ch

section Characters

variable {c : Int} {ch : UInt8} {b : Nat}

theorem plainChar_eq (ch : UInt8) :
    plainChar ch = if ch.toNat < 128 then (ch.toNat : Int) else (ch.toNat : Int) - 256 := by
  have hbits : plainChar ch = ch.toBitVec.toInt := rfl
  have hnat : ch.toBitVec.toNat = ch.toNat := rfl
  rw [hbits, BitVec.toInt_eq_toNat_cond, hnat]
  split <;> split <;> omega

theorem Reads.eq_iff (h : Reads c ch) {k : Nat} (hk : k < 128) : c = k ↔ ch.toNat = k := by
  have hlt := ch.toNat_lt
  rcases h with rfl | rfl
  · rw [unsignedChar]
    omega
  · rw [plainChar_eq]
    split <;> omega

theorem Reads.eq_iff_byte (h : Reads c ch) {k : UInt8} (hk : k.toNat < 128) :
    c = k.toNat ↔ ch = k := by
  rw [h.eq_iff hk]
  exact UInt8.toNat_inj

/-- A byte is a digit for the code if it is one, whichever way it was read. -/
theorem Reads.digit (h : Reads c ch) : digit b c = (digitIn? b ch).map Nat.cast := by
  have hlt := ch.toNat_lt
  have hc : c = ch.toNat ∨ 128 ≤ ch.toNat ∧ c < 0 := by
    rcases h with rfl | rfl
    · exact .inl rfl
    · rw [plainChar_eq]
      split <;> omega
  rcases hc with rfl | ⟨hlarge, hneg⟩
  · -- The ranges are those of the code; in each the value is the same difference.
    have hvalue : (if isdigit ch.toNat then some ((ch.toNat : Int) - 48)
        else if isalpha ch.toNat then some (ch.toNat - if isupper ch.toNat then 65 - 10 else 97 - 10)
        else none) = (digitValue? ch).map Nat.cast := by
      simp only [digitValue?, isdigit, isalpha, isupper, decide_eq_true_eq, Bool.or_eq_true,
        Bool.decide_or]
      split_ifs <;> simp only [Option.map_some, Option.map_none, Option.some.injEq, reduceCtorEq] <;>
        omega
    simp only [Strto.digit, hvalue, digitIn?]
    cases digitValue? ch with
    | none => rfl
    | some d => simp [Option.filter]
  · have hnone : digitValue? ch = none := by
      rw [digitValue?, if_neg (by omega), if_neg (by omega), if_neg (by omega)]
    have hdigit : isdigit c = false := by simp [isdigit]; omega
    have halpha : isalpha c = false := by simp [isalpha, isupper]; omega
    simp [Strto.digit, digitIn?, hnone, hdigit, halpha]

theorem isspace_unsignedChar (ch : UInt8) : isspace (unsignedChar ch) = isSpace ch := by
  have heq : ch = 32 ↔ ch.toNat = 32 := UInt8.toNat_inj.symm
  simp only [isspace, isSpace, unsignedChar, heq]
  congr 1
  apply propext
  omega

end Characters

/-! ## The beginning of a number -/

section Start

variable {nptr s : List UInt8} {c : Int} {ch : UInt8} {base : Nat}

/-- White space is skipped up to the first other byte, which there is. -/
theorem skipSpaces_eq (hterm : 0 ∈ nptr) : ∃ ch s, nptr.dropWhile isSpace = ch :: s ∧
    skipSpaces nptr = .ok (unsignedChar ch, s) ∧ 0 ∈ ch :: s := by
  induction nptr with
  | nil => cases hterm
  | cons ch s ih =>
    rw [List.dropWhile_cons, skipSpaces, isspace_unsignedChar]
    cases hspace : isSpace ch with
    | false => exact ⟨ch, s, rfl, rfl, hterm⟩
    | true =>
      rcases List.mem_cons.mp hterm with rfl | hmem
      · exact absurd hspace (by decide)
      · exact ih hmem

/-- Behind a byte that is not the end of the string there is another one. -/
theorem exists_cons_of_ne_zero (hterm : 0 ∈ ch :: s) (hne : ch ≠ 0) :
    ∃ ch' s', s = ch' :: s' ∧ 0 ∈ ch' :: s' := by
  have hmem : 0 ∈ s := (List.mem_cons.mp hterm).resolve_left fun h => hne h.symm
  cases s with
  | nil => cases hmem
  | cons ch' s' => exact ⟨ch', s', rfl, hmem⟩

theorem readSign_eq (hterm : 0 ∈ ch :: s) : ∃ c ch' s',
    readSign (unsignedChar ch) s = .ok (decide ((ch :: s).head? = some 45), c, s') ∧
      (if (ch :: s).head? = some 45 ∨ (ch :: s).head? = some 43 then (ch :: s).tail else ch :: s) =
        ch' :: s' ∧ Reads c ch' ∧ 0 ∈ ch' :: s' := by
  have hminus : unsignedChar ch = 45 ↔ ch = 45 := Reads.eq_iff_byte (k := 45) (.inl rfl) (by decide)
  have hplus : unsignedChar ch = 43 ↔ ch = 43 := Reads.eq_iff_byte (k := 43) (.inl rfl) (by decide)
  by_cases hm : ch = 45
  · obtain ⟨ch', s', rfl, hmem⟩ := exists_cons_of_ne_zero hterm (by rw [hm]; decide)
    refine ⟨plainChar ch', ch', s', ?_, by simp [hm], .inr rfl, hmem⟩
    rw [readSign, if_pos (hminus.mpr hm)]
    simp [next, hm]
  · by_cases hp : ch = 43
    · obtain ⟨ch', s', rfl, hmem⟩ := exists_cons_of_ne_zero hterm (by rw [hp]; decide)
      refine ⟨plainChar ch', ch', s', ?_, by simp [hp], .inr rfl, hmem⟩
      rw [readSign, if_neg (mt hminus.mp hm), if_pos (hplus.mpr hp)]
      simp [next, hp]
    · refine ⟨unsignedChar ch, ch, s, ?_, by simp [hm, hp], .inl rfl, hterm⟩
      rw [readSign, if_neg (mt hminus.mp hm), if_neg (mt hplus.mp hp)]
      simp [hm]

theorem readHex_eq (hreads : Reads c ch) (hterm : 0 ∈ ch :: s) : ∃ base' c' ch' s',
    readHex base c s = .ok (base', c', s') ∧
      defaultBase base' c' = Numeral.baseOf base (ch :: s) ∧
      Numeral.digitPart base (ch :: s) = ch' :: s' ∧ Reads c' ch' ∧ 0 ∈ ch' :: s' := by
  have hzero : c = 48 ↔ ch = 48 := hreads.eq_iff_byte (k := 48) (by decide)
  -- Without the mark nothing is read, and the first digit tells the base.
  have hplain : ¬ Numeral.IsHex base (ch :: s) →
      defaultBase base c = Numeral.baseOf base (ch :: s) ∧
        Numeral.digitPart base (ch :: s) = ch :: s := by
    intro hno
    rw [Numeral.baseOf, if_neg hno, Numeral.digitPart, if_neg hno, defaultBase]
    refine ⟨?_, rfl⟩
    simp only [hzero, List.head?_cons, Option.some.injEq]
    split_ifs <;> first | rfl | omega
  by_cases hmark : ((base : Int) = 0 ∨ (base : Int) = 16) ∧ c = 48
  · obtain ⟨x, t, rfl, hmem⟩ := exists_cons_of_ne_zero hterm (by rw [hzero.mp hmark.2]; decide)
    have hiff : Numeral.IsHex base (ch :: x :: t) ↔ x = 120 ∨ x = 88 := by
      have hbase : base = 0 ∨ base = 16 := by omega
      simp [Numeral.IsHex, hbase, hzero.mp hmark.2]
    by_cases hx : x = 120 ∨ x = 88
    · obtain ⟨ch', s', rfl, hmem'⟩ :=
        exists_cons_of_ne_zero hmem (by rcases hx with rfl | rfl <;> decide)
      refine ⟨16, plainChar ch', ch', s', ?_, ?_, ?_, .inr rfl, hmem'⟩
      · rw [readHex, if_pos hmark]
        simp [next, hx]
      · rw [Numeral.baseOf, if_pos (hiff.mpr hx)]
        rfl
      · rw [Numeral.digitPart, if_pos (hiff.mpr hx)]
        rfl
    · obtain ⟨hbase, hdigits⟩ := hplain (mt hiff.mp hx)
      refine ⟨base, c, ch, x :: t, ?_, hbase, hdigits, hreads, hterm⟩
      rw [readHex, if_pos hmark]
      simp [next, hx]
  · have hno : ¬ Numeral.IsHex base (ch :: s) := by
      rintro ⟨hbase, hhead, _⟩
      exact hmark ⟨by omega, hzero.mpr (Option.some.inj hhead)⟩
    obtain ⟨hbase, hdigits⟩ := hplain hno
    refine ⟨base, c, ch, s, ?_, hbase, hdigits, hreads, hterm⟩
    rw [readHex, if_neg hmark]
    rfl

/-- The code finds the number where it begins. -/
theorem readStart_eq (base : Nat) (hterm : 0 ∈ nptr) : ∃ c ch s,
    readStart nptr base = .ok (Numeral.baseOf base (Numeral.unsignedPart nptr),
        decide ((nptr.dropWhile isSpace).head? = some 45), c, s) ∧
      Numeral.digitPart base (Numeral.unsignedPart nptr) = ch :: s ∧ Reads c ch ∧
      0 ∈ ch :: s := by
  obtain ⟨ch₀, s₀, hdrop, hspaces, hterm₀⟩ := skipSpaces_eq hterm
  obtain ⟨c₁, ch₁, s₁, hsign, hpart, hreads₁, hterm₁⟩ := readSign_eq hterm₀
  obtain ⟨base', c, ch, s, hhex, hbase, hdigits, hreads, hterm'⟩ := readHex_eq hreads₁ hterm₁
  have hunsigned : Numeral.unsignedPart nptr = ch₁ :: s₁ := by
    rw [Numeral.unsignedPart, hdrop]
    exact hpart
  rw [hunsigned, hdrop, ← hbase]
  refine ⟨c, ch, s, ?_, hdigits, hreads, hterm'⟩
  simp only [readStart, hspaces, hsign, hhex, ok_bind]
  rfl

end Start

/-! ## The loop -/

section Scan

variable {b : Nat} {c : Int} {ch : UInt8} {s : List UInt8}
  {step : Int → Acc → Except Undefined Acc} {st st' : Acc}

@[simp] theorem digitIn?_zero : digitIn? b 0 = none := rfl

theorem digitIn?_lt {d : Nat} (h : digitIn? b ch = some d) : d < b := by
  have := (Option.filter_eq_some_iff.mp h).2
  simpa using this

/-- The loop takes the digits at the beginning of the string and leaves the other bytes but one. -/
theorem scan_eq (hreads : Reads c ch) (hterm : 0 ∈ ch :: s)
    (hsteps : (((ch :: s).takeWhile fun ch => (digitIn? b ch).isSome).filterMap
      (digitIn? b)).foldlM (fun st (d : Nat) => step d st) st = .ok st') :
    ∃ x, (ch :: s).dropWhile (fun ch => (digitIn? b ch).isSome) =
        x :: ((ch :: s).dropWhile fun ch => (digitIn? b ch).isSome).tail ∧
      scan b step s c st =
        .ok (st', ((ch :: s).dropWhile fun ch => (digitIn? b ch).isSome).tail) := by
  induction s generalizing ch c st with
  | nil =>
    obtain rfl : ch = 0 := (List.mem_singleton.mp hterm).symm
    have hst : st = st' := by simpa [pure_eq_ok] using hsteps
    refine ⟨0, rfl, ?_⟩
    rw [scan, hreads.digit, digitIn?_zero, hst]
    rfl
  | cons ch₁ s ih =>
    cases hdigit : digitIn? b ch with
    | none =>
      have hst : st = st' := by simpa [hdigit, pure_eq_ok] using hsteps
      refine ⟨ch, by simp [hdigit], ?_⟩
      rw [scan, hreads.digit, hdigit, hst]
      simp [hdigit]
    | some d =>
      have hmem : 0 ∈ ch₁ :: s := by
        rcases List.mem_cons.mp hterm with rfl | h
        · cases hdigit
        · exact h
      rw [List.takeWhile_cons, if_pos (by simp [hdigit]), List.filterMap_cons, hdigit,
        List.foldlM_cons] at hsteps
      obtain ⟨st₁, hstep, hsteps⟩ := bind_eq_ok.mp hsteps
      rw [List.dropWhile_cons, if_pos (by simp [hdigit]), scan, hreads.digit, hdigit]
      simp only [Option.map_some, hstep, ok_bind]
      exact ih (.inl rfl) hmem hsteps

end Scan

/-! ## The value -/

section Value

variable {M b : Nat} {sg : Int} {ds es : List Nat} {step : Int → Acc → Except Undefined Acc}

/-- The variables of the loop after the digits `ds`, for numbers of sign `sg` and up to `M`. -/
def accOf (M : Nat) (sg : Int) (b : Nat) (ds : List Nat) : Acc :=
  if value b ds ≤ M then ⟨sg * value b ds, if ds = [] then 0 else 1, none⟩
  else ⟨sg * M, -1, some .erange⟩

theorem accOf_nil : accOf M sg b [] = ⟨0, 0, none⟩ := by
  simp [accOf]

theorem accOf_of_le (h : value b ds ≤ M) :
    accOf M sg b ds = ⟨sg * value b ds, if ds = [] then 0 else 1, none⟩ :=
  if_pos h

theorem accOf_of_lt (h : M < value b ds) : accOf M sg b ds = ⟨sg * M, -1, some .erange⟩ :=
  if_neg (not_le.mpr h)

theorem accOf_any_ne_zero : (accOf M sg b ds).any ≠ 0 ↔ ds ≠ [] := by
  rcases le_or_gt (value b ds) M with h | h
  · rw [accOf_of_le h]
    split_ifs with hnil <;> simp [hnil]
  · rw [accOf_of_lt h]
    refine iff_of_true (by simp) ?_
    rintro rfl
    exact absurd h (Nat.not_lt_zero M)

/-- A turn of the loop takes the next digit: once the limit is passed nothing changes, the cutoffs
find the digit that passes it, and before that the digit is appended. -/
def TakesDigit (M : Nat) (sg : Int) (b : Nat) (step : Int → Acc → Except Undefined Acc) : Prop :=
  ∀ ds d, d < b → step d (accOf M sg b ds) = .ok (accOf M sg b (ds ++ [d]))

/-- What has to be shown of a turn: it stays where it is behind the limit, and otherwise it compares
with the quotient and the remainder of the limit. -/
theorem TakesDigit.of_turn
    (hstay : ∀ st d, st.any < 0 → step d st = .ok st)
    (hpast : ∀ (v d : Nat) any, 0 ≤ any → M / b < v ∨ v = M / b ∧ M % b < d →
      step d ⟨sg * v, any, none⟩ = .ok ⟨sg * M, -1, some .erange⟩)
    (hnext : ∀ (v d : Nat) any, 0 ≤ any → ¬ (M / b < v ∨ v = M / b ∧ M % b < d) →
      v * b + d ≤ M → step d ⟨sg * v, any, none⟩ = .ok ⟨sg * (v * b + d : Nat), 1, none⟩) :
    TakesDigit M sg b step := by
  intro ds d hd
  rcases le_or_gt (value b ds) M with hle | hlt
  · have hany : (0 : Int) ≤ if ds = [] then 0 else 1 := by split <;> omega
    rw [accOf_of_le hle]
    by_cases hlimit : M < value b (ds ++ [d])
    · rw [accOf_of_lt hlimit]
      rw [value_snoc, exceeds_iff hd] at hlimit
      exact hpast _ _ _ hany hlimit
    · rw [accOf_of_le (not_lt.mp hlimit), if_neg (List.concat_ne_nil d ds), value_snoc]
      rw [value_snoc] at hlimit
      exact hnext _ _ _ hany (mt (exceeds_iff hd).mpr hlimit) (not_lt.mp hlimit)
  · have hstill : M < value b (ds ++ [d]) := lt_of_lt_of_le hlt (value_le_snoc (by omega))
    rw [accOf_of_lt hlt, accOf_of_lt hstill]
    exact hstay _ _ (by decide : (-1 : Int) < 0)

theorem TakesDigit.foldlM (hstep : TakesDigit M sg b step) (ds : List Nat) (hes : ∀ d ∈ es, d < b) :
    es.foldlM (fun st (d : Nat) => step d st) (accOf M sg b ds) =
      .ok (accOf M sg b (ds ++ es)) := by
  induction es generalizing ds with
  | nil => simp
  | cons d es ih =>
    rw [List.foldlM_cons, hstep ds d (hes d List.mem_cons_self), ok_bind,
      ih (ds ++ [d]) fun d hd => hes d (List.mem_cons_of_mem _ hd), List.append_assoc]
    rfl

end Value

/-! ## Signed numbers -/

section Signed

variable {neg : Bool} {b : Nat}

/-- The sign, as a factor. -/
def sign (neg : Bool) : Int := if neg then -1 else 1

/-- The magnitude of the number that is farthest from zero. -/
def limit (neg : Bool) : Nat := if neg then 2 ^ 63 else 2 ^ 63 - 1

@[simp] theorem sign_false : sign false = 1 := rfl

@[simp] theorem sign_true : sign true = -1 := rfl

theorem limit_false : limit false = 2 ^ 63 - 1 := rfl

theorem limit_true : limit true = 2 ^ 63 := rfl

theorem inLong_sign {n : Nat} (h : n ≤ limit neg) :
    inLong (sign neg * n) = .ok (sign neg * n) := by
  apply if_pos
  rw [longMin, longMax]
  cases neg with
  | false =>
    rw [limit_false] at h
    rw [sign_false]
    omega
  | true =>
    rw [limit_true] at h
    rw [sign_true]
    omega

theorem limit_tdiv (neg : Bool) (b : Nat) :
    (if neg then longMin else longMax).tdiv b = sign neg * (limit neg / b : Nat) := by
  cases neg with
  | false =>
    rw [sign_false, one_mul]
    exact Int.ofNat_tdiv _ _
  | true =>
    rw [sign_true, neg_one_mul, if_pos rfl, longMin, Int.neg_tdiv]
    exact congrArg Neg.neg (Int.ofNat_tdiv _ _)

theorem limit_tmod (neg : Bool) (b : Nat) :
    (if neg then longMin else longMax).tmod b = sign neg * (limit neg % b : Nat) := by
  cases neg with
  | false =>
    rw [sign_false, one_mul]
    exact Int.ofNat_tmod _ _
  | true =>
    rw [sign_true, neg_one_mul, if_pos rfl, longMin, Int.neg_tmod]
    exact congrArg Neg.neg (Int.ofNat_tmod _ _)

theorem cutoffs_eq :
    cutoffs neg b = .ok (sign neg * (limit neg / b : Nat), (limit neg % b : Nat)) := by
  have hin := inLong_sign (Nat.div_le_self (limit neg) b)
  simp only [cutoffs, limit_tdiv, limit_tmod, hin, ok_bind, pure_eq_ok]
  cases neg with
  | false => simp only [Bool.false_eq_true, if_false, sign_false, one_mul]
  | true =>
    -- The remainder of a negative number is not positive, so the correction is not needed.
    have hle : ¬ -((limit true % b : Nat) : Int) > 0 := by omega
    simp only [if_true, sign_true, neg_one_mul, hle, if_false, neg_neg]

/-- Both signs alike: the accumulator is compared with the cutoffs by its magnitude. -/
theorem signedStep_eq {q r v d : Nat} {any : Int} (hany : 0 ≤ any) :
    signedStep neg b (sign neg * q) r d ⟨sign neg * v, any, none⟩ =
      if q < v ∨ v = q ∧ r < d then .ok ⟨sign neg * limit neg, -1, some .erange⟩
      else inLong (sign neg * v * b) >>= fun acc =>
        inLong (acc + sign neg * d) >>= fun acc => .ok ⟨acc, 1, none⟩ := by
  simp only [signedStep, not_lt.mpr hany, if_false, pure_eq_ok]
  cases neg with
  | false =>
    simp only [sign_false, Bool.false_eq_true, if_false, one_mul]
    refine if_congr (by omega) rfl rfl
  | true =>
    simp only [sign_true, if_true, neg_one_mul, ← sub_eq_add_neg]
    refine if_congr (by omega) rfl rfl

theorem signedStep_takesDigit (neg : Bool) :
    TakesDigit (limit neg) (sign neg) b
      (signedStep neg b (sign neg * (limit neg / b : Nat)) (limit neg % b : Nat)) := by
  refine .of_turn ?_ ?_ ?_
  · intro st d hany
    exact if_pos hany
  · intro v d any hany hpast
    rw [signedStep_eq hany, if_pos hpast]
  · intro v d any hany hpast hle
    have hmul : sign neg * v * b = sign neg * (v * b : Nat) := by
      rw [Int.mul_assoc, Nat.cast_mul]
    have hadd : sign neg * (v * b : Nat) + sign neg * d = sign neg * (v * b + d : Nat) := by
      rw [← Int.mul_add, Nat.cast_add]
    rw [signedStep_eq hany, if_neg hpast, hmul, inLong_sign (by omega), ok_bind, hadd,
      inLong_sign hle, ok_bind]

end Signed

/-! ## Unsigned numbers -/

theorem unsignedStep_takesDigit {b : Nat} : TakesDigit ulongMax 1 b (unsignedStep b) := by
  refine .of_turn ?_ ?_ ?_
  · intro st d hany
    exact if_pos hany
  · intro v d any hany hpast
    simp only [unsignedStep, not_lt.mpr hany, if_false]
    rw [if_pos (by omega), one_mul]
    rfl
  · intro v d any hany hpast hle
    have hfits : v * b + d < 2 ^ 64 := by
      rw [ulongMax] at hle
      omega
    have hmul : (v : Int) * b = (v * b : Nat) := (Nat.cast_mul v b).symm
    simp only [unsignedStep, not_lt.mpr hany, if_false, one_mul]
    rw [if_neg (by omega), hmul, pure_eq_ok]
    congr 2
    omega

/-! ## Whole conversions -/

section Conversions

variable {nptr : List UInt8} {base M : Nat} {sg : Int}

theorem digits_lt : ∀ d ∈ (Numeral.read base nptr).digits, d < (Numeral.read base nptr).base := by
  intro d hd
  obtain ⟨ch, _, hdigit⟩ := List.mem_filterMap.mp hd
  exact digitIn?_lt hdigit

/-- The beginning and the loop, for any turn that takes a digit. -/
theorem scan_read (base : Nat) (hterm : 0 ∈ nptr) : ∃ c s, readStart nptr base =
      .ok ((Numeral.read base nptr).base, (Numeral.read base nptr).neg, c, s) ∧
    ∀ M sg step, TakesDigit M sg (Numeral.read base nptr).base step → ∃ s',
      scan (Numeral.read base nptr).base step s c ⟨0, 0, none⟩ =
        .ok (accOf M sg (Numeral.read base nptr).base (Numeral.read base nptr).digits, s') ∧
      (Numeral.read base nptr).rest.length = s'.length + 1 := by
  obtain ⟨c, ch, s, hstart, hpart, hreads, hterm'⟩ := readStart_eq base hterm
  refine ⟨c, s, hstart, fun M sg step hstep => ?_⟩
  have hsteps := hstep.foldlM [] digits_lt
  rw [accOf_nil, List.nil_append] at hsteps
  have hrest : (Numeral.read base nptr).rest = (ch :: s).dropWhile fun ch =>
      (digitIn? (Numeral.read base nptr).base ch).isSome := by
    rw [← hpart]
    rfl
  have hdigits : (Numeral.read base nptr).digits = ((ch :: s).takeWhile fun ch =>
      (digitIn? (Numeral.read base nptr).base ch).isSome).filterMap
        (digitIn? (Numeral.read base nptr).base) := by
    rw [← hpart]
    rfl
  rw [hdigits] at hsteps
  obtain ⟨x, hcons, hscan⟩ := scan_eq hreads hterm' hsteps
  refine ⟨_, by rw [hscan, hdigits], ?_⟩
  rw [hrest, hcons]
  rfl

theorem endOf_accOf {x : Numeral} {s : List UInt8} {b : Nat} (hrest : x.rest.length = s.length + 1) :
    endOf nptr s (accOf M sg b x.digits) = x.endIn nptr := by
  rw [endOf, Numeral.endIn]
  by_cases hnil : x.digits = []
  · rw [if_neg fun hany => accOf_any_ne_zero.mp hany hnil, if_pos hnil]
  · rw [if_pos (accOf_any_ne_zero.mpr hnil), if_neg hnil, hrest]
    omega

theorem toInt_eq (x : Numeral) : x.toInt = sign x.neg * x.magnitude := by
  rw [Numeral.toInt, sign]
  split <;> omega

theorem inLong_toInt_iff (x : Numeral) :
    longMin ≤ x.toInt ∧ x.toInt ≤ longMax ↔ x.magnitude ≤ limit x.neg := by
  rw [toInt_eq, longMin, longMax]
  cases x.neg with
  | false =>
    rw [sign_false, limit_false]
    omega
  | true =>
    rw [sign_true, limit_true]
    omega

/-- A number that is too large is cut off at the bound on its side. -/
theorem cut_toInt {x : Numeral} (h : limit x.neg < x.magnitude) :
    max longMin (min longMax x.toInt) = sign x.neg * limit x.neg := by
  rw [toInt_eq, longMin, longMax]
  cases hneg : x.neg with
  | false =>
    rw [hneg, limit_false] at h
    rw [sign_false, limit_false]
    omega
  | true =>
    rw [hneg, limit_true] at h
    rw [sign_true, limit_true]
    omega

/-- The accumulator at the end is the number, cut off. -/
theorem accOf_toLong (x : Numeral) (nptr : List UInt8) :
    Conversion.mk (accOf (limit x.neg) (sign x.neg) x.base x.digits).acc
      (accOf (limit x.neg) (sign x.neg) x.base x.digits).errno (x.endIn nptr) = x.toLong nptr := by
  rcases le_or_gt x.magnitude (limit x.neg) with h | h
  · have hin := (inLong_toInt_iff x).mpr h
    rw [accOf_of_le h, Numeral.toLong, if_pos hin, min_eq_right hin.2, max_eq_right hin.1, toInt_eq]
    rfl
  · have hout := mt (inLong_toInt_iff x).mp (not_le.mpr h)
    rw [accOf_of_lt h, Numeral.toLong, if_neg hout, cut_toInt h]

theorem signed_eq (base : Nat) (hterm : 0 ∈ nptr) :
    signed nptr base = .ok ((Numeral.read base nptr).toLong nptr) := by
  obtain ⟨c, s, hstart, hscan⟩ := scan_read base hterm
  obtain ⟨s', hloop, hrest⟩ := hscan _ _ _ (signedStep_takesDigit (Numeral.read base nptr).neg)
  simp only [signed, hstart, ok_bind, cutoffs_eq, hloop, pure_eq_ok, endOf_accOf hrest, accOf_toLong]

theorem accOf_toULong (x : Numeral) (nptr : List UInt8) :
    Conversion.mk
      (if x.neg ∧ (accOf ulongMax 1 x.base x.digits).any > 0 then
        -(accOf ulongMax 1 x.base x.digits).acc % 2 ^ 64
      else (accOf ulongMax 1 x.base x.digits).acc)
      (accOf ulongMax 1 x.base x.digits).errno (x.endIn nptr) = x.toULong nptr := by
  rcases le_or_gt x.magnitude ulongMax with h | h
  · have hvalue : (if (x.neg : Prop) ∧ (if x.digits = [] then (0 : Int) else 1) > 0 then
        -(1 * (x.magnitude : Int)) % 2 ^ 64 else (1 * x.magnitude : Int)) = x.toInt % 2 ^ 64 := by
      rw [toInt_eq]
      rw [ulongMax] at h
      by_cases hnil : x.digits = []
      · have hzero : x.magnitude = 0 := by rw [Numeral.magnitude, hnil, value_nil]
        simp [hnil, hzero]
      · cases hneg : x.neg with
        | false =>
          rw [if_neg (by simp), sign_false]
          omega
        | true =>
          rw [if_pos (by simp [hnil]), sign_true, one_mul, neg_one_mul]
    rw [accOf_of_le h, Numeral.toULong, if_pos h, if_pos h, ← hvalue]
    rfl
  · rw [accOf_of_lt h, Numeral.toULong, if_neg (not_le.mpr h), if_neg (not_le.mpr h),
      if_neg (by simp), one_mul]

theorem unsigned_eq (hbase : base < 2 ^ 31) (hterm : 0 ∈ nptr) :
    unsigned nptr base = .ok ((Numeral.read base nptr).toULong nptr) := by
  have hconv : (((Numeral.read base nptr).base : Int) % 2 ^ 64).toNat =
      (Numeral.read base nptr).base := by
    have hlt : (Numeral.read base nptr).base < 2 ^ 31 := by
      simp only [Numeral.read, Numeral.baseOf]
      split_ifs <;> omega
    omega
  obtain ⟨c, s, hstart, hscan⟩ := scan_read base hterm
  obtain ⟨s', hloop, hrest⟩ := hscan _ _ _ unsignedStep_takesDigit
  simp only [unsigned, hstart, ok_bind, hconv, hloop, pure_eq_ok, endOf_accOf hrest, accOf_toULong]

end Conversions

/-! ## Negative bases -/

section NegativeBase

variable {nptr s : List UInt8} {base c : Int} {st : Acc}
  {step : Int → Acc → Except Undefined Acc}

theorem digit_of_neg (hbase : base < 0) : digit base c = none := by
  simp only [digit, isdigit, isalpha, isupper, Option.filter_eq_none_iff, decide_eq_true_eq,
    Bool.or_eq_true, Bool.decide_or]
  intro d hd
  split_ifs at hd <;> simp only [Option.some.injEq] at hd <;> omega

theorem scan_of_neg (hbase : base < 0) : scan base step s c st = .ok (st, s) := by
  cases s <;> rw [scan, digit_of_neg hbase]

theorem readStart_of_neg (hbase : base < 0) (hterm : 0 ∈ nptr) : ∃ c s, readStart nptr base =
    .ok (base, decide ((nptr.dropWhile isSpace).head? = some 45), c, s) := by
  obtain ⟨ch₀, s₀, hdrop, hspaces, hterm₀⟩ := skipSpaces_eq hterm
  obtain ⟨c₁, ch₁, s₁, hsign, -, -, -⟩ := readSign_eq hterm₀
  have hhex : readHex base c₁ s₁ = .ok (base, c₁, s₁) := if_neg (by omega)
  have hdefault : defaultBase base c₁ = base := if_neg (by omega)
  refine ⟨c₁, s₁, ?_⟩
  simp only [readStart, hspaces, hsign, hhex, ok_bind, hdefault, hdrop, pure_eq_ok]

/-- The quotient of the smallest number by `-1` is no number. -/
theorem cutoffs_overflow : cutoffs true (-1) = .error .overflow := rfl

theorem cutoffs_of_neg (neg : Bool) (hbase : base < 0) (h : ¬ (base = -1 ∧ neg = true)) :
    ∃ cutoff cutlim, cutoffs neg base = .ok (cutoff, cutlim) := by
  have hin : longMin ≤ (if neg then longMin else longMax).tdiv base ∧
      (if neg then longMin else longMax).tdiv base ≤ longMax := by
    obtain ⟨k, rfl⟩ : ∃ k : Nat, base = -k := ⟨base.natAbs, by omega⟩
    rw [Int.tdiv_neg, limit_tdiv, longMin, longMax]
    cases neg with
    | false =>
      have hq : limit false / k ≤ limit false := Nat.div_le_self _ _
      generalize limit false / k = q at hq ⊢
      rw [limit_false] at hq
      rw [sign_false]
      omega
    | true =>
      have hk : 2 ≤ k := by
        have hne : (-k : Int) ≠ -1 := fun hk => h ⟨hk, rfl⟩
        omega
      have hq : limit true / k ≤ limit true / 2 := Nat.div_le_div_left hk (by decide)
      generalize limit true / k = q at hq ⊢
      rw [limit_true] at hq
      rw [sign_true]
      omega
  have hquot : inLong ((if neg then longMin else longMax).tdiv base) = .ok _ := if_pos hin
  simp only [cutoffs, hquot, ok_bind, pure_eq_ok]
  split_ifs <;> exact ⟨_, _, rfl⟩

end NegativeBase

end Strto

/-! ## The functions -/

section Functions

variable {nptr : List UInt8}

/-- `strtol` returns the number at the beginning of the string, cut off at the bounds of `long`. -/
theorem strtol_reads {base : Nat} (hbase : base = 0 ∨ 2 ≤ base ∧ base ≤ 36) (hterm : 0 ∈ nptr) :
    strtol nptr base = .ok ((Numeral.read base nptr).toLong nptr) := by
  rw [strtol, if_neg (by omega)]
  exact Strto.signed_eq base hterm

/-- The string is ` -0x1F;`. -/
theorem strtol_reads_hex :
    strtol [32, 45, 48, 120, 49, 70, 59, 0] ((0 : Nat) : Int) = .ok ⟨-31, none, 6⟩ :=
  (strtol_reads (.inl rfl) (by decide)).trans rfl

/-- `atol` cuts the number off in the same way, and `atoi` keeps the low 32 bits of what is left: a
number beyond `int` comes out as another one, and nothing reports it. -/
theorem atoi_eq (hterm : 0 ∈ nptr) :
    atol nptr = .ok (max Strto.longMin (min Strto.longMax (Numeral.read 10 nptr).toInt)) ∧
      atoi nptr =
        .ok ((max Strto.longMin (min Strto.longMax (Numeral.read 10 nptr).toInt)).bmod (2 ^ 32)) := by
  have hstrtol : strtol nptr 10 = .ok ((Numeral.read 10 nptr).toLong nptr) :=
    (if_neg (by decide)).trans (Strto.signed_eq 10 hterm)
  rw [atol, atoi, hstrtol]
  exact ⟨rfl, rfl⟩

/-- `strtoll` reads the number in every base that is not negative, also in those that `strtol`
refuses, and finds no digits in the others; but since it does not check the base, a number with a
minus sign in base `-1` makes it divide the smallest number by `-1`. -/
theorem strtoll_reads (base : Int) (hterm : 0 ∈ nptr) :
    strtoll nptr base =
      if 0 ≤ base then .ok ((Numeral.read base.toNat nptr).toLong nptr)
      else if base = -1 ∧ (nptr.dropWhile isSpace).head? = some 45 then .error .overflow
      else .ok ⟨0, none, 0⟩ := by
  by_cases hpos : 0 ≤ base
  · obtain ⟨n, rfl⟩ := Int.eq_ofNat_of_zero_le hpos
    rw [if_pos hpos]
    exact Strto.signed_eq n hterm
  · have hneg : base < 0 := not_le.mp hpos
    obtain ⟨c, s, hstart⟩ := Strto.readStart_of_neg hneg hterm
    rw [if_neg hpos, strtoll, Strto.signed, hstart, ok_bind]
    split_ifs with hover
    · obtain ⟨rfl, hminus⟩ := hover
      simp only [hminus, decide_true, Strto.cutoffs_overflow, error_bind]
    · obtain ⟨cutoff, cutlim, hcutoffs⟩ := Strto.cutoffs_of_neg
        (decide ((nptr.dropWhile isSpace).head? = some 45)) hneg (by simpa using hover)
      simp only [hcutoffs, ok_bind, Strto.scan_of_neg hneg, pure_eq_ok]
      simp [Strto.endOf]

/-- The string is `-1`. -/
theorem strtoll_reads_baseMinusOne : strtoll [45, 49, 0] (-1) = .error .overflow :=
  (strtoll_reads (-1) (by decide)).trans rfl

/-- `strtoul` and `strtoull` return the number modulo `2 ^ 64` as long as its magnitude fits, in every
base that an `int` can have. -/
theorem strtoul_reads {base : Int} (hbase : base < 2 ^ 31) (hterm : 0 ∈ nptr) :
    strtoul nptr base =
        (if 0 ≤ base then .ok ((Numeral.read base.toNat nptr).toULong nptr) else .ok ⟨0, none, 0⟩) ∧
      strtoull nptr base = strtoul nptr base := by
  refine ⟨?_, rfl⟩
  by_cases hpos : 0 ≤ base
  · obtain ⟨n, rfl⟩ := Int.eq_ofNat_of_zero_le hpos
    rw [if_pos hpos]
    exact Strto.unsigned_eq (by omega) hterm
  · have hneg : base < 0 := not_le.mp hpos
    obtain ⟨c, s, hstart⟩ := Strto.readStart_of_neg hneg hterm
    rw [if_neg hpos, strtoul, Strto.unsigned, hstart, ok_bind]
    simp only [Strto.scan_of_neg hneg, ok_bind]
    simp [Strto.endOf]

/-- The string is `-1`. -/
theorem strtoul_reads_minusOne : strtoul [45, 49, 0] 10 = .ok ⟨2 ^ 64 - 1, none, 2⟩ :=
  (strtoul_reads (by decide) (by decide)).1.trans rfl

end Functions

end LibSei
