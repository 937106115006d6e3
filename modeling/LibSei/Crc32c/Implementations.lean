-- SUMMARY: The CRC-32C implementations of `crc32c/`, in software and with the crc32 instructions, and that they compute one function.
import LibSei.Crc32c.Tables

/-!
# The implementations of CRC-32C

Each implementation cuts the message its own way. The bytewise one looks up every byte; the
slicing ones align the start address, take the message by words of four or eight bytes, and
leave the rest to the bytewise loop; the hardware ones do not align, and leave the rest to a
switch whose cases fall through. A message in parts has the checksum of the whole
(`Checksum.crc_append`), so it is enough to know each part.
-/

namespace LibSei

namespace Crc32c

open Checksum (word bytesOf)

/-- What `data` and `length` denote: the bytes of the message, and the address they start at. -/
structure Data where
  addr : UInt64
  bytes : List UInt8

/-- `table[x & 0x000000FF]`. -/
@[irreducible]
def lookup (table : Array UInt32) (x : UInt32) : UInt32 := table.getD (x &&& 0xFF).toNat 0

/-- `crc = crc_tableil8_o32[(crc ^ *p_buf++) & 0x000000FF] ^ (crc >> 8)`. The byte is a `char`,
so it is sign-extended before the mask. -/
def byteStep (crc : UInt32) (byte : UInt8) : UInt32 :=
  lookup crcTableil8O32 (crc ^^^ byte.toInt8.toInt32.toUInt32) ^^^ (crc >>> 8)

/-- `*(uint16_t*) p_buf`. -/
def load16 (pBuf : List UInt8) : UInt16 := UInt16.ofNat (word (pBuf.take 2))

/-- `*(uint32_t*) p_buf`. -/
def load32 (pBuf : List UInt8) : UInt32 := UInt32.ofNat (word (pBuf.take 4))

/-- `*(uint64_t*) p_buf`. -/
def load64 (pBuf : List UInt8) : UInt64 := UInt64.ofNat (word (pBuf.take 8))

/-- A loop over `n` words of `width` bytes: the register, and what is left of the buffer. -/
def wordLoop {α : Type} (step : α → List UInt8 → α) (width : Nat) :
    Nat → α → List UInt8 → α × List UInt8
  | 0, crc, pBuf => (crc, pBuf)
  | n + 1, crc, pBuf => wordLoop step width n (step crc pBuf) (pBuf.drop width)

/-! ## Software -/

def crc32cSarwate (crc : UInt32) (data : Data) : UInt32 := data.bytes.foldl byteStep crc

/-- The leading misaligned bytes. -/
def initialBytes (data : Data) : Nat :=
  let initialBytes := ((4 - data.addr) &&& 3).toNat
  if data.bytes.length < initialBytes then data.bytes.length else initialBytes

/-- The frame of the slicing loops: the misaligned bytes, words of `width` bytes, and the bytes
at the end. -/
def crc32cSlicing (step : UInt32 → List UInt8 → UInt32) (width : Nat) (crc : UInt32)
    (data : Data) : UInt32 :=
  let crc := (data.bytes.take (initialBytes data)).foldl byteStep crc
  let pBuf := data.bytes.drop (initialBytes data)
  let length := data.bytes.length - initialBytes data
  let runningLength := length - length % width
  let endBytes := length - runningLength
  let (crc, pBuf) := wordLoop step width (runningLength / width) crc pBuf
  (pBuf.take endBytes).foldl byteStep crc

/-- One word of `crc32cSlicingBy4`. -/
def slicingBy4Step (crc : UInt32) (pBuf : List UInt8) : UInt32 :=
  let crc := crc ^^^ load32 pBuf
  let term1 := lookup crcTableil8O56 crc ^^^ lookup crcTableil8O48 (crc >>> 8)
  let term2 := crc >>> 16
  term1 ^^^ lookup crcTableil8O40 term2 ^^^ lookup crcTableil8O32 (term2 >>> 8)

def crc32cSlicingBy4 (crc : UInt32) (data : Data) : UInt32 :=
  crc32cSlicing slicingBy4Step 4 crc data

/-- One word of `crc32cSlicingBy8`. -/
def slicingBy8Step (crc : UInt32) (pBuf : List UInt8) : UInt32 :=
  let crc := crc ^^^ load32 pBuf
  let pBuf := pBuf.drop 4
  let term1 := lookup crcTableil8O88 crc ^^^ lookup crcTableil8O80 (crc >>> 8)
  let term2 := crc >>> 16
  let crc := term1 ^^^ lookup crcTableil8O72 term2 ^^^ lookup crcTableil8O64 (term2 >>> 8)
  let term1 := lookup crcTableil8O56 (load32 pBuf) ^^^ lookup crcTableil8O48 (load32 pBuf >>> 8)
  let term2 := load32 pBuf >>> 16
  crc ^^^ term1 ^^^ lookup crcTableil8O40 term2 ^^^ lookup crcTableil8O32 (term2 >>> 8)

def crc32cSlicingBy8 (crc : UInt32) (data : Data) : UInt32 :=
  crc32cSlicing slicingBy8Step 8 crc data

/-! ## Hardware -/

/-- The crc32 instruction on an operand of `n` bytes. -/
def ia32Crc32 (n : Nat) (crc : UInt32) (operand : Nat) : UInt32 :=
  .ofBitVec (Checksum.crc poly crc.toBitVec (bytesOf n operand))

/-- `__builtin_ia32_crc32qi`. -/
def ia32Crc32qi (crc : UInt32) (operand : UInt8) : UInt32 := ia32Crc32 1 crc operand.toNat

/-- `__builtin_ia32_crc32hi`. -/
def ia32Crc32hi (crc : UInt32) (operand : UInt16) : UInt32 := ia32Crc32 2 crc operand.toNat

/-- `__builtin_ia32_crc32si`. -/
def ia32Crc32si (crc operand : UInt32) : UInt32 := ia32Crc32 4 crc operand.toNat

/-- `__builtin_ia32_crc32di`: the register is the low half of the destination. -/
def ia32Crc32di (crc operand : UInt64) : UInt64 :=
  (ia32Crc32 8 crc.toUInt32 operand.toNat).toUInt64

namespace Hardware

/-- `case 1`, which `case 5` falls into. -/
def case1 (crc : UInt32) (pBuf : List UInt8) : UInt32 := ia32Crc32qi crc (pBuf.headD 0)

/-- `case 2`, which `case 3` falls into. -/
def case2 (crc : UInt32) (pBuf : List UInt8) : UInt32 := ia32Crc32hi crc (load16 pBuf)

def case3 (crc : UInt32) (pBuf : List UInt8) : UInt32 :=
  case2 (ia32Crc32qi crc (pBuf.headD 0)) (pBuf.drop 1)

/-- `case 4`, which `case 6` falls into. -/
def case4 (crc : UInt32) (pBuf : List UInt8) : UInt32 := ia32Crc32si crc (load32 pBuf)

def case5 (crc : UInt32) (pBuf : List UInt8) : UInt32 :=
  case1 (ia32Crc32si crc (load32 pBuf)) (pBuf.drop 4)

/-- `case 6`, which `case 7` falls into. -/
def case6 (crc : UInt32) (pBuf : List UInt8) : UInt32 :=
  case4 (ia32Crc32hi crc (load16 pBuf)) (pBuf.drop 2)

def case7 (crc : UInt32) (pBuf : List UInt8) : UInt32 :=
  case6 (ia32Crc32qi crc (pBuf.headD 0)) (pBuf.drop 1)

/-- The switch of `crc32cHardware32`. The length is masked, so no value is left for
`default`. -/
def switch32 (crc : UInt32) (pBuf : List UInt8) : Fin 4 → UInt32
  | 3 => case3 crc pBuf
  | 2 => case2 crc pBuf
  | 1 => case1 crc pBuf
  | 0 => crc

/-- The switch of `crc32cHardware64`. -/
def switch64 (crc : UInt32) (pBuf : List UInt8) : Fin 8 → UInt32
  | 7 => case7 crc pBuf
  | 6 => case6 crc pBuf
  | 4 => case4 crc pBuf
  | 3 => case3 crc pBuf
  | 2 => case2 crc pBuf
  | 5 => case5 crc pBuf
  | 1 => case1 crc pBuf
  | 0 => crc

end Hardware

def crc32cHardware32 (crc : UInt32) (data : Data) : UInt32 :=
  let length := data.bytes.length
  let (crc, pBuf) :=
    wordLoop (fun crc pBuf => ia32Crc32si crc (load32 pBuf)) 4 (length / 4) crc data.bytes
  Hardware.switch32 crc pBuf (Fin.ofNat 4 length)

/-- `crc32cHardware64`; `lp64` says whether `__LP64__` is defined. -/
def crc32cHardware64 (lp64 : Bool) (crc : UInt32) (data : Data) : UInt32 :=
  if lp64 then
    let length := data.bytes.length
    let (crc64bit, pBuf) :=
      wordLoop (fun crc pBuf => ia32Crc32di crc (load64 pBuf)) 8 (length / 8) crc.toUInt64
        data.bytes
    Hardware.switch64 crc64bit.toUInt32 pBuf (Fin.ofNat 8 length)
  else crc32cHardware32 crc data

/-- `crc32c_impl`, on what `cpuid(1)` leaves in `ecx`. -/
def crc32cImpl (lp64 : Bool) (ecx : UInt32) : UInt32 → Data → UInt32 :=
  if ecx &&& ((1 : UInt32) <<< 20) ≠ 0 then
    if lp64 then crc32cHardware64 lp64 else crc32cHardware32
  else crc32cSlicingBy8

/-! ## Bytes and words -/

theorem Slices.lookup {table : Array UInt32} {n : Nat} (h : Slices table n) (x : UInt32) :
    (lookup table x).toBitVec = Checksum.shift poly n (BitVec.ofNat 32 (x.toNat % 256)) := by
  have hindex : (x &&& 0xFF).toNat = x.toNat % 256 := by
    rw [UInt32.toNat_and]
    exact Nat.and_two_pow_sub_one_eq_mod x.toNat 8
  rw [Crc32c.lookup, hindex]
  exact h _ (Nat.mod_lt _ (by decide))

/-- The byte that leaves is looked up; the rest of the register moves. -/
theorem Slices.shift {table : Array UInt32} {n : Nat} (h : Slices table (8 + n)) (x : UInt32) :
    Checksum.shift poly (8 + n) x.toBitVec =
      Checksum.shift poly n (x >>> 8).toBitVec ^^^ (Crc32c.lookup table x).toBitVec := by
  rw [Checksum.shift_add_eq 8 n, h.lookup]
  rfl

/-- A register is looked up in four tables, each eight steps apart. -/
theorem shift_eq_lookups {t1 t2 t3 t4 : Array UInt32} {n : Nat} (h1 : Slices t1 (n + 32))
    (h2 : Slices t2 (n + 24)) (h3 : Slices t3 (n + 16)) (h4 : Slices t4 (n + 8)) (x : UInt32) :
    Checksum.shift poly (n + 32) x.toBitVec =
      (lookup t1 x ^^^ lookup t2 (x >>> 8) ^^^ lookup t3 (x >>> 16) ^^^
        lookup t4 (x >>> 16 >>> 8)).toBitVec := by
  rw [show n + 32 = 8 + (n + 24) by omega] at h1 ⊢
  rw [show n + 24 = 8 + (n + 16) by omega] at h2
  rw [show n + 16 = 8 + (n + 8) by omega] at h3
  rw [show n + 8 = 8 + n by omega] at h4
  have h16 : x >>> 8 >>> 8 = x >>> 16 := by
    apply UInt32.toNat_inj.mp
    simp [Nat.shiftRight_eq_div_pow, Nat.div_div_eq_div_mul]
  have hgone : (x >>> 16 >>> 8 >>> 8).toBitVec = 0#32 := by
    have hlt : x.toNat < 2 ^ 32 := x.toNat_lt
    apply BitVec.eq_of_toNat_eq
    simp [Nat.shiftRight_eq_div_pow]
    omega
  rw [h1.shift x, show n + 24 = 8 + (n + 16) by omega, h2.shift, show n + 16 = 8 + (n + 8) by omega,
    h16, h3.shift, show n + 8 = 8 + n by omega, h4.shift, hgone, Checksum.shift_zero_right,
    BitVec.zero_xor]
  simp only [UInt32.toBitVec_xor]
  ac_rfl

/-- Masked to a byte, a sign-extended `char` is the byte it was. -/
theorem toUInt32_mod (byte : UInt8) : byte.toInt8.toInt32.toUInt32.toNat % 256 = byte.toNat := by
  have hext : byte.toInt8.toInt32.toUInt32.toBitVec.setWidth 8 = byte.toBitVec := by
    apply BitVec.eq_of_getLsbD_eq
    intro i hi
    have hext : byte.toInt8.toInt32.toUInt32.toBitVec = byte.toBitVec.signExtend 32 := by
      simp
    rw [BitVec.getLsbD_setWidth, hext, BitVec.getLsbD_signExtend]
    simp [hi, show i < 32 by omega]
  have hnat := congrArg BitVec.toNat hext
  rwa [BitVec.toNat_setWidth] at hnat

theorem byteStep_toBitVec (crc : UInt32) (byte : UInt8) :
    (byteStep crc byte).toBitVec = Checksum.update poly crc.toBitVec byte := by
  have hbyte : byte.toNat < 256 := byte.toNat_lt
  have hindex : (crc ^^^ byte.toInt8.toInt32.toUInt32).toNat % 256 =
      (crc.toBitVec ^^^ BitVec.ofNat 32 byte.toNat).toNat % 256 := by
    rw [UInt32.toNat_xor, BitVec.toNat_xor, Nat.xor_mod_two_pow (n := 8), Nat.xor_mod_two_pow (n := 8),
      toUInt32_mod, BitVec.toNat_ofNat, Nat.mod_eq_of_lt (a := byte.toNat) (by omega),
      Nat.mod_eq_of_lt (a := byte.toNat) hbyte]
    rfl
  rw [byteStep, UInt32.toBitVec_xor, slices_o32.lookup, hindex, Checksum.update_eq (by decide),
    BitVec.xor_comm]
  rfl

theorem foldl_byteStep (crc : UInt32) (bytes : List UInt8) :
    (bytes.foldl byteStep crc).toBitVec = Checksum.crc poly crc.toBitVec bytes := by
  induction bytes generalizing crc with
  | nil => rfl
  | cons byte bytes ih => rw [List.foldl_cons, ih, byteStep_toBitVec, Checksum.crc_cons]

theorem slicingBy4Step_toBitVec (crc : UInt32) {pBuf : List UInt8} (h : 4 ≤ pBuf.length) :
    (slicingBy4Step crc pBuf).toBitVec = Checksum.crc poly crc.toBitVec (pBuf.take 4) := by
  have hlength : (pBuf.take 4).length = 4 := by rw [List.length_take, Nat.min_eq_left h]
  rw [Checksum.crc_eq_shift (by rw [hlength]), hlength]
  exact (shift_eq_lookups (n := 0) slices_o56 slices_o48 slices_o40 slices_o32
    (crc ^^^ load32 pBuf)).symm

theorem slicingBy8Step_toBitVec (crc : UInt32) {pBuf : List UInt8} (h : 8 ≤ pBuf.length) :
    (slicingBy8Step crc pBuf).toBitVec = Checksum.crc poly crc.toBitVec (pBuf.take 8) := by
  have hlength : (pBuf.take 4).length = 4 := by rw [List.length_take]; omega
  have hlength' : ((pBuf.drop 4).take 4).length = 4 := by
    rw [List.length_take, List.length_drop]
    omega
  have hfirst : Checksum.shift poly 64 (crc.toBitVec ^^^ BitVec.ofNat 32 (word (pBuf.take 4))) = _ :=
    shift_eq_lookups (n := 32) slices_o88 slices_o80 slices_o72 slices_o64 (crc ^^^ load32 pBuf)
  have hsecond : Checksum.shift poly 32 (BitVec.ofNat 32 (word ((pBuf.drop 4).take 4))) = _ :=
    shift_eq_lookups (n := 0) slices_o56 slices_o48 slices_o40 slices_o32 (load32 (pBuf.drop 4))
  rw [Checksum.crc_take_add 4 4, Checksum.crc_eq_shift (by rw [hlength']),
    Checksum.crc_eq_shift (by rw [hlength]), hlength', hlength, Checksum.shift_xor,
    ← Checksum.shift_add, hfirst, hsecond, ← UInt32.toBitVec_xor, slicingBy8Step]
  congr 1
  ac_rfl

/-- The crc32 instructions, on the bytes they are given. -/
theorem ia32Crc32_word (crc : UInt32) {bytes : List UInt8} {n : Nat} (h : bytes.length = n) :
    (ia32Crc32 n crc (word bytes)).toBitVec = Checksum.crc poly crc.toBitVec bytes := by
  subst h
  rw [ia32Crc32, Checksum.bytesOf_word]

/-- What an operand of `n` bytes is read from. -/
theorem word_take_lt (pBuf : List UInt8) (n : Nat) : word (pBuf.take n) < 2 ^ (8 * n) := by
  have hle : (pBuf.take n).length ≤ n := List.length_take_le n pBuf
  exact Nat.lt_of_lt_of_le Checksum.word_lt (Nat.pow_le_pow_right (by decide) (by omega))

section Instructions

variable (crc : UInt32) {pBuf : List UInt8}

theorem ia32Crc32qi_headD (h : 1 ≤ pBuf.length) :
    (ia32Crc32qi crc (pBuf.headD 0)).toBitVec = Checksum.crc poly crc.toBitVec (pBuf.take 1) := by
  have hword : (pBuf.headD 0).toNat = word (pBuf.take 1) := by
    cases pBuf with
    | nil => simp at h
    | cons byte pBuf => simp [word]
  rw [ia32Crc32qi, hword]
  exact ia32Crc32_word crc (by rw [List.length_take, Nat.min_eq_left h])

theorem ia32Crc32hi_load16 (h : 2 ≤ pBuf.length) :
    (ia32Crc32hi crc (load16 pBuf)).toBitVec = Checksum.crc poly crc.toBitVec (pBuf.take 2) := by
  rw [ia32Crc32hi, load16, UInt16.toNat_ofNat', Nat.mod_eq_of_lt (word_take_lt pBuf 2)]
  exact ia32Crc32_word crc (by rw [List.length_take, Nat.min_eq_left h])

theorem ia32Crc32si_load32 (h : 4 ≤ pBuf.length) :
    (ia32Crc32si crc (load32 pBuf)).toBitVec = Checksum.crc poly crc.toBitVec (pBuf.take 4) := by
  rw [ia32Crc32si, load32, UInt32.toNat_ofNat', Nat.mod_eq_of_lt (word_take_lt pBuf 4)]
  exact ia32Crc32_word crc (by rw [List.length_take, Nat.min_eq_left h])

theorem ia32Crc32di_load64 (crc : UInt64) (h : 8 ≤ pBuf.length) :
    (ia32Crc32di crc (load64 pBuf)).toUInt32.toBitVec =
      Checksum.crc poly crc.toUInt32.toBitVec (pBuf.take 8) := by
  rw [ia32Crc32di, load64, UInt64.toNat_ofNat', Nat.mod_eq_of_lt (word_take_lt pBuf 8),
    UInt32.toUInt32_toUInt64]
  exact ia32Crc32_word _ (by rw [List.length_take, Nat.min_eq_left h])

end Instructions

/-! ## Loops and tails -/

/-- A loop over words computes the checksum of the words, if each step does. The register is
read by `reg`, since `crc32cHardware64` keeps it in a wider variable. -/
theorem wordLoop_spec {α : Type} {step : α → List UInt8 → α} {width : Nat} (reg : α → BitVec 32)
    (hstep : ∀ crc pBuf, width ≤ pBuf.length →
      reg (step crc pBuf) = Checksum.crc poly (reg crc) (pBuf.take width))
    (n : Nat) (crc : α) (pBuf : List UInt8) (h : n * width ≤ pBuf.length) :
    reg (wordLoop step width n crc pBuf).1 = Checksum.crc poly (reg crc) (pBuf.take (n * width)) ∧
      (wordLoop step width n crc pBuf).2 = pBuf.drop (n * width) := by
  induction n generalizing crc pBuf with
  | zero => simp [wordLoop]
  | succ n ih =>
    rw [Nat.succ_mul] at h
    obtain ⟨hreg, hrest⟩ := ih (step crc pBuf) (pBuf.drop width) (by rw [List.length_drop]; omega)
    rw [wordLoop, hreg, hrest, hstep crc pBuf (by omega), List.drop_drop, Nat.succ_mul,
      Nat.add_comm (n * width), Checksum.crc_take_add]
    exact ⟨rfl, rfl⟩

theorem initialBytes_le (data : Data) : initialBytes data ≤ data.bytes.length := by
  simp only [initialBytes]
  split <;> omega

theorem crc32cSlicing_spec {step : UInt32 → List UInt8 → UInt32} {width : Nat}
    (hstep : ∀ crc pBuf, width ≤ pBuf.length →
      (step crc pBuf).toBitVec = Checksum.crc poly crc.toBitVec (pBuf.take width))
    (crc : UInt32) (data : Data) :
    (crc32cSlicing step width crc data).toBitVec =
      Checksum.crc poly crc.toBitVec data.bytes := by
  have hle := initialBytes_le data
  generalize hinitial : initialBytes data = initial at hle
  have hlength : (data.bytes.drop initial).length = data.bytes.length - initial := List.length_drop
  generalize hrest : data.bytes.length - initial = length at hlength
  have hrunning : (length - length % width) / width * width = length - length % width :=
    Nat.div_mul_cancel (Nat.dvd_sub_mod length)
  obtain ⟨hreg, hdrop⟩ := wordLoop_spec UInt32.toBitVec hstep ((length - length % width) / width)
    ((data.bytes.take initial).foldl byteStep crc) (data.bytes.drop initial) (by omega)
  rw [hrunning] at hreg hdrop
  -- the loop at the end takes what is left, so the parts make up the message
  have hend : ((data.bytes.drop initial).drop (length - length % width)).take
      (length - (length - length % width)) =
        (data.bytes.drop initial).drop (length - length % width) :=
    List.take_of_length_le (by rw [List.length_drop, hlength])
  simp only [crc32cSlicing, hinitial, hrest]
  rw [foldl_byteStep, hreg, hdrop, hend, foldl_byteStep, ← Checksum.crc_append,
    ← Checksum.crc_append, List.take_append_drop, List.take_append_drop]

namespace Hardware

variable (crc : UInt32) {pBuf : List UInt8}

theorem case3_spec (h : 3 ≤ pBuf.length) :
    (case3 crc pBuf).toBitVec = Checksum.crc poly crc.toBitVec (pBuf.take 3) := by
  have hrest : 2 ≤ (pBuf.drop 1).length := by rw [List.length_drop]; omega
  rw [case3, case2, ia32Crc32hi_load16 _ hrest, ia32Crc32qi_headD crc (by omega),
    ← Checksum.crc_take_add]

theorem case5_spec (h : 5 ≤ pBuf.length) :
    (case5 crc pBuf).toBitVec = Checksum.crc poly crc.toBitVec (pBuf.take 5) := by
  have hrest : 1 ≤ (pBuf.drop 4).length := by rw [List.length_drop]; omega
  rw [case5, case1, ia32Crc32qi_headD _ hrest, ia32Crc32si_load32 crc (by omega),
    ← Checksum.crc_take_add]

theorem case6_spec (h : 6 ≤ pBuf.length) :
    (case6 crc pBuf).toBitVec = Checksum.crc poly crc.toBitVec (pBuf.take 6) := by
  have hrest : 4 ≤ (pBuf.drop 2).length := by rw [List.length_drop]; omega
  rw [case6, case4, ia32Crc32si_load32 _ hrest, ia32Crc32hi_load16 crc (by omega),
    ← Checksum.crc_take_add]

theorem case7_spec (h : 7 ≤ pBuf.length) :
    (case7 crc pBuf).toBitVec = Checksum.crc poly crc.toBitVec (pBuf.take 7) := by
  have hrest : 6 ≤ (pBuf.drop 1).length := by rw [List.length_drop]; omega
  rw [case7, case6_spec _ hrest, ia32Crc32qi_headD crc (by omega), ← Checksum.crc_take_add]

theorem switch32_spec {n : Fin 4} (h : n.val ≤ pBuf.length) :
    (switch32 crc pBuf n).toBitVec = Checksum.crc poly crc.toBitVec (pBuf.take n) := by
  match n, h with
  | 0, _ => rfl
  | 1, h => exact ia32Crc32qi_headD crc h
  | 2, h => exact ia32Crc32hi_load16 crc h
  | 3, h => exact case3_spec crc h

theorem switch64_spec {n : Fin 8} (h : n.val ≤ pBuf.length) :
    (switch64 crc pBuf n).toBitVec = Checksum.crc poly crc.toBitVec (pBuf.take n) := by
  match n, h with
  | 0, _ => rfl
  | 1, h => exact ia32Crc32qi_headD crc h
  | 2, h => exact ia32Crc32hi_load16 crc h
  | 3, h => exact case3_spec crc h
  | 4, h => exact ia32Crc32si_load32 crc h
  | 5, h => exact case5_spec crc h
  | 6, h => exact case6_spec crc h
  | 7, h => exact case7_spec crc h

/-- Words first and the switch on what is left: the whole message. -/
theorem words_then_tail {α : Type} {step : α → List UInt8 → α} {width : Nat} [NeZero width]
    {tail : UInt32 → List UInt8 → Fin width → UInt32} (reg : α → UInt32)
    (hstep : ∀ crc pBuf, width ≤ pBuf.length →
      (reg (step crc pBuf)).toBitVec = Checksum.crc poly (reg crc).toBitVec (pBuf.take width))
    (htail : ∀ crc pBuf (n : Fin width), n.val ≤ pBuf.length →
      (tail crc pBuf n).toBitVec = Checksum.crc poly crc.toBitVec (pBuf.take n))
    (crc : α) (bytes : List UInt8) :
    (tail (reg (wordLoop step width (bytes.length / width) crc bytes).1)
      (wordLoop step width (bytes.length / width) crc bytes).2
      (Fin.ofNat width bytes.length)).toBitVec = Checksum.crc poly (reg crc).toBitVec bytes := by
  obtain ⟨hreg, hrest⟩ := wordLoop_spec (fun crc => (reg crc).toBitVec) hstep
    (bytes.length / width) crc bytes (Nat.div_mul_le_self _ _)
  have hlength : (bytes.drop (bytes.length / width * width)).length = bytes.length % width := by
    rw [List.length_drop, Nat.mul_comm, Nat.mod_eq_sub_mul_div]
  have hleft : ((Fin.ofNat width bytes.length : Fin width) : Nat) = bytes.length % width := rfl
  have hall : (bytes.drop (bytes.length / width * width)).take (bytes.length % width) =
      bytes.drop (bytes.length / width * width) := List.take_of_length_le hlength.le
  rw [hrest, htail _ _ _ (by rw [hleft, hlength]), hreg, hleft, hall, ← Checksum.crc_append,
    List.take_append_drop]

end Hardware

/-! ## Agreement -/

section Agreement

variable (crc : UInt32) (data : Data)

theorem crc32cSarwate_toBitVec :
    (crc32cSarwate crc data).toBitVec = Checksum.crc poly crc.toBitVec data.bytes :=
  foldl_byteStep crc data.bytes

theorem crc32cSlicingBy4_toBitVec :
    (crc32cSlicingBy4 crc data).toBitVec = Checksum.crc poly crc.toBitVec data.bytes :=
  crc32cSlicing_spec (fun crc _ => slicingBy4Step_toBitVec crc) crc data

theorem crc32cSlicingBy8_toBitVec :
    (crc32cSlicingBy8 crc data).toBitVec = Checksum.crc poly crc.toBitVec data.bytes :=
  crc32cSlicing_spec (fun crc _ => slicingBy8Step_toBitVec crc) crc data

theorem crc32cHardware32_toBitVec :
    (crc32cHardware32 crc data).toBitVec = Checksum.crc poly crc.toBitVec data.bytes :=
  Hardware.words_then_tail id (fun crc _ => ia32Crc32si_load32 crc)
    (fun crc _ _ => Hardware.switch32_spec crc) crc data.bytes

theorem crc32cHardware64_toBitVec (lp64 : Bool) :
    (crc32cHardware64 lp64 crc data).toBitVec = Checksum.crc poly crc.toBitVec data.bytes := by
  cases lp64 with
  | false => exact crc32cHardware32_toBitVec crc data
  | true =>
    have h := Hardware.words_then_tail UInt64.toUInt32 (fun crc _ => ia32Crc32di_load64 crc)
      (fun crc _ _ => Hardware.switch64_spec crc) crc.toUInt64 data.bytes
    rwa [UInt32.toUInt32_toUInt64] at h

theorem crc32cImpl_toBitVec (lp64 : Bool) (ecx : UInt32) :
    (crc32cImpl lp64 ecx crc data).toBitVec = Checksum.crc poly crc.toBitVec data.bytes := by
  rw [crc32cImpl]
  split
  · split
    · exact crc32cHardware64_toBitVec crc data lp64
    · exact crc32cHardware32_toBitVec crc data
  · exact crc32cSlicingBy8_toBitVec crc data

end Agreement

/-- On every message, whatever its length and wherever it starts, the implementations compute
the bitwise CRC-32C, so it does not matter which of them a host selects. -/
theorem implementations_agree (crc : UInt32) (addr : UInt64) (bytes : List UInt8) :
    (crc32cSarwate crc ⟨addr, bytes⟩).toBitVec = Checksum.crc poly crc.toBitVec bytes ∧
      crc32cSlicingBy4 crc ⟨addr, bytes⟩ = crc32cSarwate crc ⟨addr, bytes⟩ ∧
      crc32cSlicingBy8 crc ⟨addr, bytes⟩ = crc32cSarwate crc ⟨addr, bytes⟩ ∧
      crc32cHardware32 crc ⟨addr, bytes⟩ = crc32cSarwate crc ⟨addr, bytes⟩ ∧
      (∀ lp64, crc32cHardware64 lp64 crc ⟨addr, bytes⟩ = crc32cSarwate crc ⟨addr, bytes⟩) ∧
      ∀ lp64 lp64' ecx ecx' addr',
        crc32cImpl lp64 ecx crc ⟨addr, bytes⟩ = crc32cImpl lp64' ecx' crc ⟨addr', bytes⟩ := by
  have hagree : ∀ {x y : UInt32}, x.toBitVec = Checksum.crc poly crc.toBitVec bytes →
      y.toBitVec = Checksum.crc poly crc.toBitVec bytes → x = y :=
    fun hx hy => UInt32.toBitVec_inj.mp (hx.trans hy.symm)
  have hsarwate := crc32cSarwate_toBitVec crc ⟨addr, bytes⟩
  refine ⟨hsarwate, hagree (crc32cSlicingBy4_toBitVec crc _) hsarwate,
    hagree (crc32cSlicingBy8_toBitVec crc _) hsarwate,
    hagree (crc32cHardware32_toBitVec crc _) hsarwate, ?_, ?_⟩
  · intro lp64
    exact hagree (crc32cHardware64_toBitVec crc _ lp64) hsarwate
  · intro lp64 lp64' ecx ecx' addr'
    exact hagree (crc32cImpl_toBitVec crc _ lp64 ecx) (crc32cImpl_toBitVec crc _ lp64' ecx')

end Crc32c

end LibSei
