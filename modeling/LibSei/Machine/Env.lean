-- SUMMARY: The process around the library: its memory, the system allocator, the CRC routine and the effects that leave it.
import LibSei.Machine.Exec
import LibSei.Memory.Bytes

/-!
# The surrounding process

The library calls `malloc`, `free`, a CRC-32C routine picked at load time and the
callbacks of deferred system calls. Their behaviour is a parameter; what a run
does with them is recorded.
-/

namespace LibSei

open Memory

/-- What the library does to the outside. -/
inductive Effect where
  | freed (ptr : Nat)
  | called (func : Nat) (args : List Nat)
  deriving DecidableEq, Repr

/-- The functions the library links against. -/
structure Env where
  /-- The routine behind the function pointer `crc32c`. -/
  crc32c : UInt32 → List UInt8 → UInt32
  /-- The address the `k`-th call of `malloc` returns for a request. -/
  malloc : Nat → Nat → Nat
  /-- The length of the block at an address. -/
  usable : Nat → Nat
  /-- What the function behind the callback of a deferred call returns, after the effects so far. -/
  result : List Effect → Nat → List Nat → Int32
  /-- What `free` leaves in memory. -/
  free : Nat → Mem → Mem
  /-- `free` writes into the block it releases and nowhere else. -/
  free_frame : ∀ a m b, ¬ (a ≤ b ∧ b < a + usable a) → free a m b = m b

/-- A process with pages of 4 KiB as blocks, a `free` that leaves them alone, the sum of the bytes
as checksum and sends that send all they are given. -/
def Env.plain : Env where
  crc32c crc bytes := bytes.foldl (fun acc x => acc + x.toUInt32) crc
  malloc k _ := 4096 * (k + 1)
  usable _ := 4096
  result _ _ args := Int32.ofNat (args.getD 2 0)
  free _ m := m
  free_frame _ _ _ _ := rfl

/-- The process: its memory, the number of `malloc` calls made, and the effects so
far, oldest first. -/
@[ext] structure Machine where
  mem : Mem
  nalloc : Nat
  trace : List Effect

namespace Machine

def malloc (env : Env) (size : Nat) (m : Machine) : Nat × Machine :=
  (env.malloc m.nalloc size, { m with nalloc := m.nalloc + 1 })

def free (env : Env) (ptr : Nat) (m : Machine) : Machine :=
  { m with mem := env.free ptr m.mem, trace := m.trace ++ [.freed ptr] }

/-- Run the callback of a deferred call. The callbacks only read memory. -/
def call (func : Nat) (args : List Nat) (m : Machine) : Machine :=
  { m with trace := m.trace ++ [.called func args] }

/-- The bytes `[ptr, ptr + size)`. -/
def bytes (m : Mem) (ptr size : Nat) : List UInt8 := (List.range size).map (fun i => m (ptr + i))

theorem free_mem_outside {env : Env} {ptr b : Nat} {m : Machine}
    (h : ¬ (ptr ≤ b ∧ b < ptr + env.usable ptr)) : (m.free env ptr).mem b = m.mem b :=
  env.free_frame ptr m.mem b h

end Machine

end LibSei
