-- SUMMARY: The hash-table copy-on-write buffer of builds without COW_APPEND_ONLY: lookups, reads, writes, swap, apply and comparison.
import LibSei.Abuf.Basic
import LibSei.Memory.Overlay

/-!
# The copy-on-write buffer

Builds without `COW_APPEND_ONLY` keep one buffer per phase, with an entry for each word of eight
bytes that was written. With `COW_WT` a write goes to memory and the entry holds what the word
was before the first write; without it, in `COW_WB`, memory stays as it is and the entry holds
what was written. The entries lie in buckets that grow by doubling.
-/

namespace LibSei

open Memory Control

/-- `COW_WT` or `COW_WB`. -/
inductive CowMode where
  | wt | wb
  deriving DecidableEq, Repr

/-- `COW_MAX`. -/
def cowMax : Nat := 128

/-- `sizeof(cow_entry_t)`. -/
def sizeofCowEntry : UInt64 := 24

/-- `cow_entry_t`. The union in it is the one of `abuf_entry_t`, and `next` is never read. -/
structure CowEntry where
  wkey : Nat
  wvalue : AbufWord

/-- `struct cow_buffer`. `table i` lists the first `sizes[i]` entries of a bucket; what lies
behind them is never read. -/
structure Cow where
  table : Nat → List CowEntry
  maxSize : Nat → Int32

namespace CowEntry

/-- `GETWADDR(heap, e->wkey)`. -/
def waddr (e : CowEntry) : Nat := e.wkey <<< 3

/-- `WVAL(e)`. -/
def wval (e : CowEntry) : Nat := e.wvalue.wvax .uint64 0

/-- `WVAL(e) = v`. -/
def setWval (e : CowEntry) (v : Nat) : CowEntry := { e with wvalue := e.wvalue.setWvax .uint64 0 v }

/-- `WVAX(e, type, addr) = v` in `COW_WB`. -/
def setWvax (t : UIntTy) (addr v : Nat) (e : CowEntry) : CowEntry :=
  { e with wvalue := e.wvalue.setWvax t addr v }

/-- A new entry for a word of memory. -/
def new (m : Mem) (wkey : Nat) : CowEntry :=
  CowEntry.setWval ⟨wkey, AbufWord.zero⟩ (load m (wkey <<< 3) 8)

/-- Reading an entry in `COW_WB`. -/
def read (b : Build) (t : UIntTy) (addr : Nat) (e : CowEntry) : Exec Nat := do
  b.assert (addr &&& (t.sizeof - 1) = 0) "cant handle unaligned accesses"
  failIfn (addr &&& (t.sizeof - 1) = 0) "cant handle unaligned accesses"
  return e.wvalue.wvax t addr

/-- The first entry with the key is changed. -/
def modifyKey (f : CowEntry → CowEntry) (wkey : Nat) : List CowEntry → List CowEntry
  | [] => []
  | e :: es => if e.wkey = wkey then f e :: es else e :: modifyKey f wkey es

end CowEntry

namespace Cow

/-- `HASH`. -/
def hash (wkey : Nat) : Nat := wkey % cowMax

/-- `GETWKEY`. -/
def getWKey (addr : Nat) : Nat := addr >>> 3

/-- `cow_init`. -/
def init (maxSize : Int32) : Cow := ⟨fun _ => [], fun _ => maxSize⟩

/-- `cow->sizes[i] = 0`. -/
def clearBucket (c : Cow) (i : Nat) : Cow := { c with table := Function.update c.table i [] }

/-- `cow_find`. -/
def find (c : Cow) (wkey : Nat) : Option CowEntry :=
  (c.table (hash wkey)).find? fun e => e.wkey == wkey

/-- `realloc(cow->table[i], max_size*sizeof(cow_entry_t))` returns a block. None has more than
`PTRDIFF_MAX` bytes; below that, `room` says whether there is one. -/
def Granted (room : Bool) (maxSize : Int32) : Prop :=
  room = true ∧ (maxSize.toInt64.toUInt64 * sizeofCowEntry).toNat < 2 ^ 63

instance (room : Bool) (maxSize : Int32) : Decidable (Granted room maxSize) :=
  inferInstanceAs (Decidable (_ ∧ _))

/-- `COW_CHECK_SIZE`. -/
def checkSize (room : Bool) (c : Cow) (i : Nat) : Exec Cow :=
  if ((c.table i).length : Int) + 1 = (c.maxSize i).toInt then do
    failIfn (Granted room (c.maxSize i * 2)) "no space left"
    return { c with maxSize := Function.update c.maxSize i (c.maxSize i * 2) }
  else return c

/-- A new entry at the end of its bucket. -/
def append (room : Bool) (c : Cow) (m : Mem) (wkey : Nat) : Exec Cow := do
  let c ← c.checkSize room (hash wkey)
  inBounds (((c.table (hash wkey)).length : Int) < (c.maxSize (hash wkey)).toInt) "cow->table"
  return { c with
    table := Function.update c.table (hash wkey) (c.table (hash wkey) ++ [CowEntry.new m wkey]) }

/-- The first part of `COW_WRITE`, after which there is an entry for the key. -/
def locate (room : Bool) (c : Cow) (m : Mem) (wkey : Nat) : Exec Cow :=
  if (c.find wkey).isSome then return c else c.append room m wkey

/-- Changing the entry `cow_find` returns. -/
def modify (f : CowEntry → CowEntry) (c : Cow) (wkey : Nat) : Cow :=
  { c with
    table := Function.update c.table (hash wkey) (CowEntry.modifyKey f wkey (c.table (hash wkey))) }

/-- `COW_READ`. -/
def read (b : Build) (mode : CowMode) (c : Cow) (m : Mem) (t : UIntTy) (addr : Nat) : Exec Nat :=
  if mode = .wt then return load m addr t.sizeof
  else (c.find (getWKey addr)).elim (.ok (load m addr t.sizeof)) (CowEntry.read b t addr)

/-- `COW_WRITE`. -/
def write (b : Build) (mode : CowMode) (room : Bool) (c : Cow) (m : Mem) (t : UIntTy)
    (addr value : Nat) : Exec (Cow × Mem) := do
  b.assert (addr &&& (t.sizeof - 1) = 0) "cant handle unaligned accesses"
  let c ← c.locate room m (getWKey addr)
  if mode = .wt then return (c, store m addr t.sizeof value)
  else return (c.modify (CowEntry.setWvax t addr value) (getWKey addr), m)

/-! ## Whole buffers -/

/-- A bucket of `cow_apply`. -/
def applyBucket (i : Nat) (s : Cow × Mem) : Cow × Mem :=
  (s.1.clearBucket i, (s.1.table i).foldl (fun m e => store m e.waddr 8 e.wval) s.2)

/-- `cow_apply`. -/
def apply (c : Cow) (m : Mem) : Cow × Mem := cowMax.fold (fun i _ s => applyBucket i s) (c, m)

/-- The entries of a bucket in `cow_swap`. -/
def swapEntries : List CowEntry → Mem → List CowEntry × Mem
  | [], m => ([], m)
  | e :: es, m =>
      let r := swapEntries es (store m e.waddr 8 e.wval)
      (e.setWval (load m e.waddr 8) :: r.1, r.2)

/-- A bucket of `cow_swap`. -/
def swapBucket (i : Nat) (s : Cow × Mem) : Cow × Mem :=
  let r := swapEntries (s.1.table i) s.2
  ({ s.1 with table := Function.update s.1.table i r.1 }, r.2)

/-- `cow_swap`, which is only called with `COW_WT`. -/
def swap (c : Cow) (m : Mem) : Cow × Mem := cowMax.fold (fun i _ s => swapBucket i s) (c, m)

/-- The comparison of two values in `cow_apply_cmp`. In `COW_WB` the value is written to memory,
in `COW_WT` it is compared with memory. -/
def cmpValue (mode : CowMode) (e1 e2 : CowEntry) (m : Mem) : Exec Mem :=
  if mode = .wt then do
    failIfn (e1.wval = load m e1.waddr 8) "cow entries differ (value)"
    return m
  else do
    failIfn (e1.wval = e2.wval) "cow entries differ (value)"
    return store m e1.waddr 8 e1.wval

/-- The entries of a bucket in `cow_apply_cmp`, when there are as many of them in both. -/
def cmpEntries (mode : CowMode) : List CowEntry → List CowEntry → Mem → Exec Mem
  | e1 :: es1, e2 :: es2, m => do
      failIfn (e1.wkey = e2.wkey) "entries point to different addresses"
      let m ← cmpValue mode e1 e2 m
      cmpEntries mode es1 es2 m
  | _, _, m => return m

/-- A bucket of `cow_apply_cmp`. -/
def cmpBucket (mode : CowMode) (i : Nat) (s : Cow × Cow × Mem) : Exec (Cow × Cow × Mem) := do
  failIfn ((s.1.table i).length = (s.2.1.table i).length) "cow sizes differ"
  let m ← cmpEntries mode (s.1.table i) (s.2.1.table i) s.2.2
  return (s.1.clearBucket i, s.2.1.clearBucket i, m)

/-- `cow_apply_cmp`. -/
def applyCmp (mode : CowMode) (c1 c2 : Cow) (m : Mem) : Exec (Cow × Cow × Mem) :=
  forLoop (cmpBucket mode) cowMax 0 (c1, c2, m)

/-- No bucket has an entry. -/
def Empty (c : Cow) : Prop := ∀ i < cowMax, c.table i = []

theorem empty_init (maxSize : Int32) : (init maxSize).Empty := fun _ _ => rfl

end Cow

end LibSei
