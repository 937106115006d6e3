-- SUMMARY: The conversions of strings to integers: strtol, strtoll, strtoul, strtoull, atol and atoi.
import LibSei.Control.Loop

/-!
# strtol and its variants

A string is the list of the bytes from a pointer on, up to the end of the block, so a pointer into a
string is what is left of the list. `c` is an `int`: where the code reads a character without a cast,
the byte is a signed `char`. The functions of `ctype.h` are those of the C locale. The code may call
them with a negative `char`, which the standard leaves open; here such a `char` is in no class.
`endptr` is not null.
-/

namespace LibSei

open Control

/-- What C leaves undefined: to read behind the block, and a signed result out of range. -/
inductive Undefined where
  | read
  | overflow
  deriving DecidableEq, Repr

inductive Errno where
  | einval
  | erange
  deriving DecidableEq, Repr

/-- What a conversion returns: the value, what it stores in `errno` if anything, and the offset that
it stores in `*endptr`. -/
structure Conversion where
  value : Int
  errno : Option Errno
  endptr : Nat
  deriving DecidableEq, Repr

namespace Strto

/-! ## Characters -/

def isspace (c : Int) : Bool := c = 32 ∨ 9 ≤ c ∧ c ≤ 13

def isdigit (c : Int) : Bool := 48 ≤ c ∧ c ≤ 57

def isupper (c : Int) : Bool := 65 ≤ c ∧ c ≤ 90

def isalpha (c : Int) : Bool := isupper c ∨ 97 ≤ c ∧ c ≤ 122

/-- `*s` as it is. -/
def plainChar (ch : UInt8) : Int := ch.toInt8.toInt

/-- `(unsigned char) *s`. -/
def unsignedChar (ch : UInt8) : Int := ch.toNat

/-- `*s++`. -/
def next : List UInt8 → Except Undefined (UInt8 × List UInt8)
  | [] => .error .read
  | ch :: s => .ok (ch, s)

/-! ## The beginning of a number -/

/-- `do c = (unsigned char) *s++; while (isspace(c))`. -/
def skipSpaces : List UInt8 → Except Undefined (Int × List UInt8)
  | [] => .error .read
  | ch :: s => if isspace (unsignedChar ch) then skipSpaces s else .ok (unsignedChar ch, s)

/-- The sign: `neg`, and the character behind it. -/
def readSign (c : Int) (s : List UInt8) : Except Undefined (Bool × Int × List UInt8) :=
  if c = 45 then do
    let (ch, s) ← next s
    return (true, plainChar ch, s)
  else if c = 43 then do
    let (ch, s) ← next s
    return (false, plainChar ch, s)
  else return (false, c, s)

/-- The `0x` of a hexadecimal number. -/
def readHex (base c : Int) (s : List UInt8) : Except Undefined (Int × Int × List UInt8) :=
  if (base = 0 ∨ base = 16) ∧ c = 48 then do
    let (x, t) ← next s
    if x = 120 ∨ x = 88 then do
      let (ch, t) ← next t
      return (16, plainChar ch, t)
    else return (base, c, s)
  else return (base, c, s)

/-- `if (base == 0) base = c == '0' ? 8 : 10`. -/
def defaultBase (base c : Int) : Int := if base = 0 then (if c = 48 then 8 else 10) else base

/-- The base of the number, its sign, its first character and what follows. -/
def readStart (nptr : List UInt8) (base : Int) :
    Except Undefined (Int × Bool × Int × List UInt8) := do
  let (c, s) ← skipSpaces nptr
  let (neg, c, s) ← readSign c s
  let (base, c, s) ← readHex base c s
  return (defaultBase base c, neg, c, s)

/-! ## The digits -/

/-- The value of a character as a digit; none if the loop is left. -/
def digit (base c : Int) : Option Int :=
  let value :=
    if isdigit c then some (c - 48)
    else if isalpha c then some (c - if isupper c then 65 - 10 else 97 - 10)
    else none
  value.filter fun c => c < base

/-- The variables of the loop. -/
structure Acc where
  acc : Int
  any : Int
  errno : Option Errno
  deriving DecidableEq, Repr

/-- The loop over the digits. -/
def scan (base : Int) (step : Int → Acc → Except Undefined Acc) :
    List UInt8 → Int → Acc → Except Undefined (Acc × List UInt8)
  | [], c, st =>
      match digit base c with
      | none => .ok (st, [])
      | some d => do
          let _ ← step d st
          .error .read
  | ch :: s, c, st =>
      match digit base c with
      | none => .ok (st, ch :: s)
      | some d => do
          let st ← step d st
          scan base step s (unsignedChar ch) st

/-- `any ? s - 1 : nptr`. -/
def endOf (nptr s : List UInt8) (st : Acc) : Nat :=
  if st.any ≠ 0 then nptr.length - s.length - 1 else 0

/-! ## strtol, strtoll -/

def longMin : Int := -2 ^ 63

def longMax : Int := 2 ^ 63 - 1

/-- The result of an operation on `long`. -/
def inLong (v : Int) : Except Undefined Int :=
  if longMin ≤ v ∧ v ≤ longMax then .ok v else .error .overflow

/-- `cutoff` and `cutlim`. -/
def cutoffs (neg : Bool) (base : Int) : Except Undefined (Int × Int) := do
  let limit := if neg then longMin else longMax
  let cutlim := limit.tmod base
  let cutoff ← inLong (limit.tdiv base)
  if neg then
    if cutlim > 0 then return (cutoff + 1, -(cutlim - base)) else return (cutoff, -cutlim)
  else return (cutoff, cutlim)

/-- One turn of the loop in `strtol` and `strtoll`. -/
def signedStep (neg : Bool) (base cutoff cutlim c : Int) (st : Acc) : Except Undefined Acc :=
  if st.any < 0 then return st
  else if neg then
    if st.acc < cutoff ∨ st.acc = cutoff ∧ c > cutlim then return ⟨longMin, -1, some .erange⟩
    else do
      let acc ← inLong (st.acc * base)
      let acc ← inLong (acc - c)
      return { st with any := 1, acc := acc }
  else
    if st.acc > cutoff ∨ st.acc = cutoff ∧ c > cutlim then return ⟨longMax, -1, some .erange⟩
    else do
      let acc ← inLong (st.acc * base)
      let acc ← inLong (acc + c)
      return { st with any := 1, acc := acc }

/-- What `strtol` and `strtoll` have in common; `long` and `long long` have 64 bits. -/
def signed (nptr : List UInt8) (base : Int) : Except Undefined Conversion := do
  let (base, neg, c, s) ← readStart nptr base
  let (cutoff, cutlim) ← cutoffs neg base
  let (st, s) ← scan base (signedStep neg base cutoff cutlim) s c ⟨0, 0, none⟩
  return ⟨st.acc, st.errno, endOf nptr s st⟩

/-! ## strtoul, strtoull -/

def ulongMax : Nat := 2 ^ 64 - 1

/-- One turn of the loop in `strtoul` and `strtoull`. -/
def unsignedStep (base : Nat) (c : Int) (st : Acc) : Except Undefined Acc :=
  let cutoff : Int := (ulongMax / base : Nat)
  let cutlim : Int := (ulongMax % base : Nat)
  if st.any < 0 then return st
  else if st.acc > cutoff ∨ st.acc = cutoff ∧ c > cutlim then
    return ⟨ulongMax, -1, some .erange⟩
  else return { st with any := 1, acc := (st.acc * base % 2 ^ 64 + c) % 2 ^ 64 }

/-- What `strtoul` and `strtoull` have in common. The base is converted to `unsigned long`. -/
def unsigned (nptr : List UInt8) (base : Int) : Except Undefined Conversion := do
  let (base, neg, c, s) ← readStart nptr base
  let (st, s) ← scan base (unsignedStep (base % 2 ^ 64).toNat) s c ⟨0, 0, none⟩
  let value := if neg ∧ st.any > 0 then -st.acc % 2 ^ 64 else st.acc
  return ⟨value, st.errno, endOf nptr s st⟩

end Strto

/-! ## The functions -/

/-- `strtol`. The variants do not check the base. -/
def strtol (nptr : List UInt8) (base : Int) : Except Undefined Conversion :=
  if base ≠ 0 ∧ (base < 2 ∨ base > 36) then return ⟨0, some .einval, 0⟩
  else Strto.signed nptr base

/-- `strtoll`. -/
def strtoll (nptr : List UInt8) (base : Int) : Except Undefined Conversion := Strto.signed nptr base

/-- `strtoul`. -/
def strtoul (nptr : List UInt8) (base : Int) : Except Undefined Conversion :=
  Strto.unsigned nptr base

/-- `strtoull`. -/
def strtoull (nptr : List UInt8) (base : Int) : Except Undefined Conversion :=
  Strto.unsigned nptr base

/-- `atol`. -/
def atol (nptr : List UInt8) : Except Undefined Int := do
  let result ← strtol nptr 10
  return result.value

/-- `atoi`: the conversion to `int` keeps the low 32 bits. -/
def atoi (nptr : List UInt8) : Except Undefined Int := do
  let result ← strtol nptr 10
  return result.value.bmod (2 ^ 32)

end LibSei
