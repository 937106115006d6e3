-- SUMMARY: The memset and memcpy of the transactional interface as programs, and which bytes they write.
import LibSei.Abuf.Basic
import LibSei.Memory.Copies

/-!
# Transactional memset and memcpy

`_ITM_memsetW` and `_ITM_memcpyRtWt` split a range into accesses of the types the library
logs. Pointers and sizes are 64-bit numbers; the running index of the copy is a 32-bit one.
-/

namespace LibSei

open Memory

instance : Width UIntTy := ⟨UIntTy.sizeof⟩

@[simp] theorem sizeof_eq (t : UIntTy) : Width.sizeof t = t.sizeof := rfl

/-! ## The C library -/

/-- `memcpy`. -/
def memcpy (dst src n : UInt64) : Prog UIntTy UInt64 := do
  let _ ← Prog.repeatTimes (fun i => do
    Prog.copy .uint8 (dst.toNat + i) (src.toNat + i)
    return i + 1) n.toNat 0
  return dst

/-- `memset`. -/
def memset (s : UInt64) (c : Int32) (n : UInt64) : Prog UIntTy UInt64 := do
  let _ ← Prog.repeatTimes (fun i => do
    Prog.put .uint8 (s.toNat + i) c.toUInt32.toUInt8.toNat
    return i + 1) n.toNat 0
  return s

/-! ## _ITM_memsetW -/

/-- `b << 56 | b << 48 | … | b` for `b = (uint64_t) (char) c`. A `char` is signed. -/
def memsetPattern (c : Int32) : UInt64 :=
  let b := c.toInt8.toInt64.toUInt64
  b <<< 56 ||| b <<< 48 ||| b <<< 40 ||| b <<< 32 ||| b <<< 24 ||| b <<< 16 ||| b <<< 8 ||| b

/-- One `sei_write` of the value `v` at the pointer, which is then moved on. -/
def putNext (t : UIntTy) (v : Nat) (step p : UInt64) : Prog UIntTy UInt64 := do
  Prog.put t p.toNat v
  return p + step

/-- `_ITM_memsetW` for an address that is not ignored. Each loop makes at most `n` steps. -/
def memsetW (s : UInt64) (c : Int32) (n : UInt64) : Prog UIntTy UInt64 := do
  let p64 := s &&& ~~~7
  let e := s + n
  let e64 := e &&& ~~~7
  let p64 := if p64 < s then p64 + 8 else p64
  let p ← Prog.whileLoop (fun p => decide (p < e) && p != p64)
    (putNext .uint8 c.toUInt32.toUInt8.toNat 1) (n.toNat + 1) s
  let p ← Prog.whileLoop (fun p => decide (p < e64))
    (putNext .uint64 (memsetPattern c).toNat 8) (n.toNat + 1) p
  let _ ← Prog.whileLoop (fun p => decide (p < e))
    (putNext .uint8 c.toUInt32.toUInt8.toNat 1) (n.toNat + 1) p
  return s

/-! ## _ITM_memcpyRtWt -/

/-- One `sei_write` of the value at `source + i` to `destination + i`. -/
def copyAt (t : UIntTy) (dst src : UInt64) (i : UInt32) : Prog UIntTy Unit :=
  Prog.copy t (dst + i.toUInt64).toNat (src + i.toUInt64).toNat

/-- One byte, and the index moved on. -/
def copyByteAt (dst src : UInt64) (i : UInt32) : Prog UIntTy UInt32 := do
  copyAt .uint8 dst src i
  return i + 1

/-- The loop of `_ITM_memcpyRtWt` that copies byte by byte. -/
def memcpyRtWt (dst src size : UInt64) (fuel : Nat) : Prog UIntTy UInt64 := do
  let _ ← Prog.doWhile (copyByteAt dst src) (fun i => decide (i.toUInt64 < size)) fuel 0
  return dst

/-- The first stage of the word-wise copy: bytes up to an address divisible by 4. -/
def alignBytes (dst src : UInt64) (fuel : Nat) : Prog UIntTy UInt32 :=
  let unal := (dst % 4).toUInt32
  if unal > 0 then
    Prog.doWhile (copyByteAt dst src) (fun i => decide (i < 4 - unal)) fuel 0
  else .ret 0

/-- The second stage: one 32-bit step to an address divisible by 8. -/
def alignWord (dst src : UInt64) (i len : UInt32) : Prog UIntTy (UInt32 × UInt32) :=
  let unal64 := ((dst + i.toUInt64) % 8).toUInt32
  if unal64 > 0 ∧ len ≥ 4 then do
    copyAt .uint32 dst src i
    return (i + 4, len - 4)
  else .ret (i, len)

/-- One 64-bit step. -/
def copyWordAt (dst src : UInt64) (s : UInt32 × UInt32) : Prog UIntTy (UInt32 × UInt32) := do
  copyAt .uint64 dst src s.1
  return (s.1 + 8, s.2 - 8)

/-- The third stage: `num64w` 64-bit steps. -/
def copyWords (dst src : UInt64) (num64w i len : UInt32) : Prog UIntTy (UInt32 × UInt32) :=
  Prog.repeatTimes (copyWordAt dst src) num64w.toNat (i, len)

/-- The fourth stage: one 32-bit step. -/
def tailWord (dst src : UInt64) (i len : UInt32) : Prog UIntTy UInt32 :=
  if len ≥ 4 then do
    copyAt .uint32 dst src i
    return i + 4
  else .ret i

/-- The last stage: the remaining bytes. -/
def tailBytes (dst src size : UInt64) (fuel : Nat) (i : UInt32) : Prog UIntTy UInt32 :=
  Prog.whileLoop (fun i => decide (i.toUInt64 < size)) (copyByteAt dst src) fuel i

/-- `_ITM_memcpyRtWt` with `COW_WT` and without `COW_APPEND_ONLY`. -/
def memcpyRtWtWords (dst src size : UInt64) (fuel : Nat) : Prog UIntTy UInt64 :=
  if size ≥ 4 then do
    let i ← alignBytes dst src fuel
    let s ← alignWord dst src i (size.toUInt32 - i)
    let s ← copyWords dst src (s.2 / 8) s.1 s.2
    let i ← tailWord dst src s.1 s.2
    let _ ← tailBytes dst src size fuel i
    return dst
  else memcpyRtWt dst src size fuel

end LibSei
