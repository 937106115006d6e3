-- SUMMARY: What is seen through a copy-on-write buffer, the invariant of its buckets, and what reads and writes do to both.
import LibSei.Cow.Basic

/-!
# What is seen through a buffer

The words of a buffer lie over memory. In `COW_WB` the program sees memory through them; in
`COW_WT` it sees memory itself, and what is seen through the words is memory as it was when the
phase began. A bucket holds the entries whose keys hash to it, one for each key, and is never
full.
-/

namespace LibSei

open Memory Control

/-! ## Words and memory -/

instance wordSize_neZero : NeZero 8 := ⟨Nat.succ_ne_zero 7⟩

namespace AbufWord

/-- The slot of an aligned access is its place in the word. -/
theorem slot_of_aligned {addr : Nat} {t : UIntTy} (h : addr % t.sizeof = 0) :
    slot addr t = addr % 8 := by
  have hmask : addr &&& 7 = addr % 8 := Nat.and_two_pow_sub_one_eq_mod addr 3
  cases t <;> simp only [slot, pickMask, hmask, UIntTy.sizeof, Nat.shiftRight_eq_div_pow] at h ⊢ <;>
    omega

/-- An aligned read of a word reads the bytes it lies over. -/
theorem wvax_of_aligned {addr : Nat} {t : UIntTy} (h : addr % t.sizeof = 0) (w : AbufWord) :
    w.wvax t addr = leValue (fun i => w (Fin.ofNat 8 (addr + i))) t.sizeof := by
  have hle := slot_add_sizeof_le addr t
  rw [slot_of_aligned h] at hle
  refine leValue_congr fun i hi => ?_
  have hplace : (addr + i) % 8 = addr % 8 + i := by omega
  rw [dif_pos (by rw [slot_of_aligned h]; omega)]
  congr 1
  exact Fin.ext (by rw [Fin.val_mk, slot_of_aligned h]; exact hplace.symm)

end AbufWord

theorem UIntTy.and_sizeof_sub_one (addr : Nat) (t : UIntTy) :
    addr &&& (t.sizeof - 1) = addr % t.sizeof := by
  cases t
  · exact Nat.and_two_pow_sub_one_eq_mod addr 0
  · exact Nat.and_two_pow_sub_one_eq_mod addr 1
  · exact Nat.and_two_pow_sub_one_eq_mod addr 2
  · exact Nat.and_two_pow_sub_one_eq_mod addr 3

theorem UIntTy.sizeof_dvd (t : UIntTy) : t.sizeof ∣ 8 := by
  cases t <;> decide

namespace CowEntry

theorem waddr_eq (e : CowEntry) : e.waddr = e.wkey * 8 := Nat.shiftLeft_eq _ _

theorem wval_eq (e : CowEntry) : e.wval = leValue (fun i => e.wvalue (Fin.ofNat 8 i)) 8 := by
  have h : e.wval = leValue (fun i => e.wvalue (Fin.ofNat 8 (0 + i))) 8 :=
    AbufWord.wvax_of_aligned (t := .uint64) rfl e.wvalue
  simpa only [Nat.zero_add] using h

/-- Storing the value of an entry puts its word into memory. -/
theorem store_wval (e : CowEntry) (m : Mem) :
    store m e.waddr 8 e.wval = putWord e.wkey e.wvalue m := by
  funext b
  rw [waddr_eq]
  by_cases hb : e.wkey * 8 ≤ b ∧ b < e.wkey * 8 + 8
  · have hkey : b / 8 = e.wkey := by omega
    rw [store_inside hb, wval_eq, leByte_leValue (by omega), putWord, if_pos hkey]
    congr 1
    exact Fin.ext (by show (b - e.wkey * 8) % 8 = b % 8; omega)
  · have hkey : b / 8 ≠ e.wkey := by omega
    rw [store_outside hb, putWord, if_neg hkey]

/-- Setting the value of an entry to what memory holds at `k` copies the word. -/
theorem wvalue_setWval_load (e : CowEntry) (m : Mem) (k : Nat) :
    (e.setWval (load m (k * 8) 8)).wvalue = wordAt m k := by
  funext j
  have hslot : AbufWord.slot 0 .uint64 = 0 := rfl
  show (if AbufWord.slot 0 .uint64 ≤ j ∧ j < AbufWord.slot 0 .uint64 + UIntTy.uint64.sizeof
    then leByte (load m (k * 8) 8) (j - AbufWord.slot 0 .uint64) else e.wvalue j) = m (k * 8 + j)
  rw [hslot, if_pos ⟨Nat.zero_le _, by show j.val < 0 + 8; omega⟩, load, leByte_leValue (by omega)]
  rfl

theorem wvalue_new (m : Mem) (k : Nat) : (new m k).wvalue = wordAt m k := by
  rw [new, Nat.shiftLeft_eq]
  exact wvalue_setWval_load _ m k

@[simp] theorem wkey_new (m : Mem) (k : Nat) : (new m k).wkey = k := rfl

@[simp] theorem wkey_setWvax (t : UIntTy) (addr v : Nat) (e : CowEntry) :
    (e.setWvax t addr v).wkey = e.wkey := rfl

section ModifyKey

variable {f : CowEntry → CowEntry} (hf : ∀ e, (f e).wkey = e.wkey)
include hf

theorem map_wkey_modifyKey (k : Nat) (l : List CowEntry) :
    (modifyKey f k l).map wkey = l.map wkey := by
  induction l with
  | nil => rfl
  | cons e l ih =>
    rw [modifyKey]
    split
    · rw [List.map_cons, List.map_cons, hf]
    · rw [List.map_cons, List.map_cons, ih]

theorem valueOf_modifyKey (k k' : Nat) (l : List CowEntry) :
    valueOf wkey wvalue (modifyKey f k l) k' =
      if k' = k then valueOf wkey (fun e => (f e).wvalue) l k else valueOf wkey wvalue l k' := by
  induction l with
  | nil => rw [modifyKey]; split <;> rfl
  | cons e l ih =>
    rw [modifyKey]
    by_cases he : e.wkey = k
    · subst he
      rw [if_pos rfl, valueOf_cons, hf, valueOf_cons, if_pos rfl, valueOf_cons]
      by_cases hk : k' = e.wkey
      · rw [if_pos hk, if_pos hk.symm]
      · rw [if_neg hk, if_neg (Ne.symm hk), if_neg (Ne.symm hk)]
    · rw [if_neg he, valueOf_cons, ih, valueOf_cons, valueOf_cons, if_neg he]
      by_cases hk : k' = k
      · subst hk
        rw [if_pos rfl, if_pos rfl, if_neg he]
      · rw [if_neg hk, if_neg hk]

end ModifyKey

end CowEntry

/-! ## Growth -/

section Growth

variable {c : Int32}

theorem toInt_doubled (hpos : 0 < c.toInt) (hlt : c.toInt < 2 ^ 30) : (c * 2).toInt = 2 * c.toInt := by
  have hmul : (c * 2).toInt = (c.toInt * 2).bmod (2 ^ 32) := Int32.toInt_mul c 2
  rw [hmul, Int.bmod_eq_of_le (by omega) (by omega), Int.mul_comm]

/-- An `int` converted to `size_t`. -/
private theorem toNat_toUInt64 (x : Int32) :
    (x.toInt64.toUInt64.toNat : Int) = if 0 ≤ x.toInt then x.toInt else x.toInt + 2 ^ 64 := by
  have hlt := x.toInt64.toUInt64.toNat_lt
  have hcond : x.toInt64.toInt = if 2 * x.toInt64.toUInt64.toNat < 2 ^ 64
      then (x.toInt64.toUInt64.toNat : Int) else x.toInt64.toUInt64.toNat - 2 ^ 64 :=
    BitVec.toInt_eq_toNat_cond _
  rw [Int32.toInt_toInt64] at hcond
  split at hcond <;> split <;> omega

/-- `realloc` is asked for a size that exists exactly when doubling the capacity does not overflow. -/
theorem request_lt_iff (hpos : 0 < c.toInt) :
    ((c * 2).toInt64.toUInt64 * sizeofCowEntry).toNat < 2 ^ 63 ↔ c.toInt < 2 ^ 30 := by
  have hlt := c.toInt_lt
  have hx := toNat_toUInt64 (c * 2)
  rw [UInt64.toNat_mul, show sizeofCowEntry.toNat = 24 from rfl]
  by_cases hc : c.toInt < 2 ^ 30
  · rw [toInt_doubled hpos hc, if_pos (by omega)] at hx
    rw [Nat.mod_eq_of_lt (by omega)]
    omega
  · -- the doubled capacity is negative: as a size it is close to 2 ^ 64, and so is the product
    have hmul : (c * 2).toInt = (c.toInt * 2).bmod (2 ^ 32) := Int32.toInt_mul c 2
    have hneg : (c.toInt * 2).bmod (2 ^ 32) = c.toInt * 2 - 2 ^ 32 := by
      rw [Int.bmod_def]
      omega
    rw [hmul, hneg, if_neg (by omega)] at hx
    have hsplit : (c * 2).toInt64.toUInt64.toNat * 24 =
        ((c * 2).toInt64.toUInt64.toNat * 24 - 2 ^ 64 * 23) + 2 ^ 64 * 23 := by omega
    rw [hsplit, Nat.add_mul_mod_self_left, Nat.mod_eq_of_lt (by omega)]
    omega

end Growth

namespace Cow

variable {b : Build} {mode : CowMode} {room : Bool} {c c' : Cow} {m m' : Mem} {t : UIntTy}
  {i k addr value : Nat}

/-! ## The view and the invariant -/

theorem hash_lt (k : Nat) : hash k < cowMax := Nat.mod_lt _ (by decide)

theorem getWKey_eq (addr : Nat) : getWKey addr = addr / 8 := Nat.shiftRight_eq_div_pow addr 3

/-- The word of the entry with a key. -/
def look (c : Cow) (k : Nat) : Option AbufWord :=
  valueOf CowEntry.wkey CowEntry.wvalue (c.table (hash k)) k

theorem map_find (c : Cow) (k : Nat) : (c.find k).map CowEntry.wvalue = c.look k := rfl

/-- Memory seen through the words of a buffer. -/
def view (c : Cow) (m : Mem) : Mem := overlay c.look m

/-- The keys of a bucket. -/
def keys (c : Cow) (i : Nat) : List Nat := (c.table i).map CowEntry.wkey

theorem keys_eq_nil : c.keys i = [] ↔ c.table i = [] := List.map_eq_nil_iff

theorem length_keys (c : Cow) (i : Nat) : (c.keys i).length = (c.table i).length := List.length_map _

/-- Each key is in the bucket it hashes to, once. -/
structure Hashed (keys : Nat → List Nat) : Prop where
  hash : ∀ i < cowMax, ∀ k ∈ keys i, Cow.hash k = i
  nodup : ∀ i < cowMax, (keys i).Nodup

/-- The keys are in their buckets, and no bucket is full. -/
structure WellFormed (c : Cow) : Prop where
  hashed : Hashed c.keys
  below : ∀ i < cowMax, ((c.table i).length : Int) < (c.maxSize i).toInt

/-- A buffer at the begin of a phase. -/
structure Ready (c : Cow) : Prop where
  empty : c.Empty
  capacity : ∀ i < cowMax, 0 < (c.maxSize i).toInt

theorem ready_init {maxSize : Int32} (h : 0 < maxSize.toInt) : (init maxSize).Ready :=
  ⟨empty_init maxSize, fun _ _ => h⟩

theorem Empty.keys (h : c.Empty) (hi : i < cowMax) : c.keys i = [] := by
  rw [Cow.keys, h i hi]
  rfl

theorem Empty.view (h : c.Empty) (m : Mem) : c.view m = m :=
  overlay_empty fun k => by rw [look, h _ (hash_lt k)]; rfl

theorem look_eq_none : c.look k = none ↔ k ∉ c.keys (hash k) := valueOf_eq_none

theorem Ready.wellFormed (h : c.Ready) : c.WellFormed where
  hashed :=
    { hash := fun i hi k hk => by simp [h.empty.keys hi] at hk
      nodup := fun i hi => by simp [h.empty.keys hi] }
  below i hi := by simpa [h.empty i hi] using h.capacity i hi

/-! ## Writes -/

/-- The keys after a word was located: a new key comes to the end of its bucket. -/
def addKey (keys : Nat → List Nat) (k : Nat) : Nat → List Nat :=
  if k ∈ keys (hash k) then keys else Function.update keys (hash k) (keys (hash k) ++ [k])

theorem mem_addKey (keys : Nat → List Nat) (k : Nat) : k ∈ addKey keys k (hash k) := by
  rw [addKey]
  split
  · assumption
  · rw [Function.update_self]
    exact List.mem_append_right _ (List.mem_singleton_self k)

theorem length_addKey_le (keys : Nat → List Nat) (k i : Nat) :
    (addKey keys k i).length ≤ (keys i).length + 1 := by
  rw [addKey]
  split
  · omega
  · by_cases hi : i = hash k
    · rw [hi, Function.update_self, List.length_append]
      rfl
    · rw [Function.update_of_ne hi]
      omega

theorem Hashed.addKey {keys : Nat → List Nat} (h : Hashed keys) (k : Nat) :
    Hashed (Cow.addKey keys k) := by
  rw [Cow.addKey]
  split
  · exact h
  · next hk =>
    have hbucket : ∀ i, Function.update keys (Cow.hash k) (keys (Cow.hash k) ++ [k]) i =
        if i = Cow.hash k then keys i ++ [k] else keys i := by
      intro i
      by_cases hi : i = Cow.hash k
      · rw [if_pos hi, hi, Function.update_self]
      · rw [if_neg hi, Function.update_of_ne hi]
    refine ⟨fun i hi k' hk' => ?_, fun i hi => ?_⟩
    · rw [hbucket] at hk'
      split at hk'
      · next heq =>
        rcases List.mem_append.mp hk' with hk' | hk'
        · exact h.hash i hi k' hk'
        · rw [List.mem_singleton.mp hk', heq]
      · exact h.hash i hi k' hk'
    · rw [hbucket]
      split
      · next heq =>
        subst heq
        exact (h.nodup _ hi).append (List.nodup_singleton k) (List.disjoint_singleton.mpr hk)
      · exact h.nodup i hi

/-- `COW_CHECK_SIZE` leaves room for one more entry. -/
theorem checkSize_spec (hc : ((c.table i).length : Int) < (c.maxSize i).toInt)
    (h : c.checkSize room i = .ok c') :
    c'.table = c.table ∧ ((c.table i).length : Int) + 1 < (c'.maxSize i).toInt ∧
      ∀ j, j ≠ i → c'.maxSize j = c.maxSize j := by
  rw [checkSize] at h
  split at h
  · next hfull =>
    obtain ⟨hok, h⟩ := seq_eq_ok.mp h
    obtain ⟨-, hsize⟩ := failIfn_eq_ok.mp hok
    have hpos : 0 < (c.maxSize i).toInt := by omega
    have hlt := (request_lt_iff hpos).mp hsize
    cases h
    refine ⟨rfl, ?_, fun j hj => Function.update_of_ne hj _ _⟩
    show ((c.table i).length : Int) + 1 < (Function.update c.maxSize i (c.maxSize i * 2) i).toInt
    rw [Function.update_self, toInt_doubled hpos hlt]
    omega
  · next hfull =>
    cases h
    exact ⟨rfl, by omega, fun _ _ => rfl⟩

theorem checkSize_error {e : Stop} (h : c.checkSize room i = .error e) :
    e = .fail "no space left" [] := by
  rw [checkSize] at h
  split at h
  · rcases seq_eq_error.mp h with h | ⟨-, h⟩
    · exact (failIfn_eq_error.mp h).2
    · cases h
  · cases h

theorem checkSize_total (hlt : ((c.table i).length : Int) + 1 < 2 ^ 30) : ∃ c', c.checkSize true i = .ok c' := by
  rw [checkSize]
  split
  · next hfull =>
    rw [failIfn_of ⟨rfl, (request_lt_iff (by omega)).mpr (by omega)⟩]
    exact ⟨_, rfl⟩
  · exact ⟨_, rfl⟩

/-- A change of one bucket is seen at the keys that hash to it. -/
theorem look_update {l : List CowEntry} (htable : c'.table = Function.update c.table (hash k) l)
    (k' : Nat) : c'.look k' =
      if hash k' = hash k then valueOf CowEntry.wkey CowEntry.wvalue l k' else c.look k' := by
  rw [look, htable]
  by_cases h : hash k' = hash k
  · rw [if_pos h, h, Function.update_self]
  · rw [if_neg h, Function.update_of_ne h]
    rfl

theorem keys_update {l : List CowEntry} (htable : c'.table = Function.update c.table i l) :
    c'.keys = Function.update c.keys i (l.map CowEntry.wkey) := by
  funext j
  rw [keys, htable]
  by_cases h : j = i
  · rw [h, Function.update_self, Function.update_self]
  · rw [Function.update_of_ne h, Function.update_of_ne h]
    rfl

/-- What holds after there is an entry for a key, with memory `m` below the buffer. -/
structure Located (c : Cow) (m : Mem) (k : Nat) (c' : Cow) : Prop where
  wellFormed : c'.WellFormed
  keys : c'.keys = addKey c.keys k
  view : c'.view m = c.view m

theorem append_spec (hc : c.WellFormed) (hk : c.look k = none) (h : c.append room m k = .ok c') :
    Located c m k c' := by
  rw [append] at h
  obtain ⟨c1, hsize, h⟩ := bind_eq_ok.mp h
  obtain ⟨-, h⟩ := seq_eq_ok.mp h
  obtain ⟨htable, hroom, hothers⟩ := checkSize_spec (hc.below _ (hash_lt k)) hsize
  have hnew : k ∉ c.keys (hash k) := look_eq_none.mp hk
  have htable' : c'.table =
      Function.update c.table (hash k) (c.table (hash k) ++ [CowEntry.new m k]) := by
    cases h
    rw [htable]
  have hmax : c'.maxSize = c1.maxSize := by cases h; rfl
  have hkeys : c'.keys = addKey c.keys k := by
    rw [keys_update htable', addKey, if_neg hnew, List.map_append]
    rfl
  refine ⟨⟨hkeys ▸ hc.hashed.addKey k, fun i hi => ?_⟩, hkeys, ?_⟩
  · rw [htable', hmax]
    by_cases heq : i = hash k
    · subst heq
      rw [Function.update_self, List.length_append]
      exact_mod_cast hroom
    · rw [Function.update_of_ne heq, hothers i heq]
      exact hc.below i hi
  · have hlook : ∀ k', c'.look k' = if k' = k then some (wordAt m k) else c.look k' := by
      intro k'
      rw [look_update htable', valueOf_append_singleton (e := CowEntry.new m k) hk,
        CowEntry.wvalue_new, CowEntry.wkey_new]
      by_cases heq : k' = k
      · rw [if_pos (heq ▸ rfl), if_pos heq, if_pos heq]
      · rw [if_neg heq, if_neg heq]
        split
        · next hhash => rw [look, hhash]
        · rfl
    exact overlay_lay (by rw [hlook, if_pos rfl]) hk fun k' hk' => by rw [hlook, if_neg hk']

theorem locate_spec (hc : c.WellFormed) (h : c.locate room m k = .ok c') : Located c m k c' := by
  rw [locate] at h
  split at h
  · next hfound =>
    cases h
    have hmem : k ∈ c.keys (hash k) := by
      by_contra hnone
      rw [← look_eq_none, ← map_find, Option.map_eq_none_iff] at hnone
      rw [hnone] at hfound
      cases hfound
    exact ⟨hc, by rw [addKey, if_pos hmem], rfl⟩
  · next hnone =>
    refine append_spec hc ?_ h
    rw [← map_find, Option.not_isSome_iff_eq_none.mp hnone]
    rfl

theorem locate_error {e : Stop} (hc : c.WellFormed) (h : c.locate room m k = .error e) :
    e = .fail "no space left" [] := by
  rw [locate] at h
  split at h
  · cases h
  · rw [append] at h
    rcases bind_eq_error.mp h with h | ⟨c1, hsize, h⟩
    · exact checkSize_error h
    · obtain ⟨htable, hroom, -⟩ := checkSize_spec (hc.below _ (hash_lt k)) hsize
      rw [htable, inBounds_of (by omega)] at h
      cases h

/-- With room for the buckets, a word is located as long as the doubled capacity does not overflow. -/
theorem locate_total (hc : c.WellFormed) (hlt : ((c.table (hash k)).length : Int) + 1 < 2 ^ 30) :
    ∃ c', c.locate true m k = .ok c' := by
  rw [locate]
  split
  · exact ⟨c, rfl⟩
  · obtain ⟨c1, hsize⟩ := checkSize_total hlt
    obtain ⟨htable, hroom, -⟩ := checkSize_spec (hc.below _ (hash_lt k)) hsize
    rw [append, hsize, ok_bind, htable, inBounds_of (by omega)]
    exact ⟨_, rfl⟩

theorem modify_keys {f : CowEntry → CowEntry} (hf : ∀ e, (f e).wkey = e.wkey) (c : Cow) (k : Nat) :
    (c.modify f k).keys = c.keys := by
  have hupdate : (c.modify f k).keys = Function.update c.keys (hash k)
      ((CowEntry.modifyKey f k (c.table (hash k))).map CowEntry.wkey) := keys_update rfl
  rw [hupdate, CowEntry.map_wkey_modifyKey hf]
  exact Function.update_eq_self _ _

theorem WellFormed.of_keys (hc : c.WellFormed) (hkeys : c'.keys = c.keys)
    (hmax : c'.maxSize = c.maxSize) : c'.WellFormed where
  hashed := hkeys ▸ hc.hashed
  below i hi := by
    rw [← length_keys, hkeys, length_keys, hmax]
    exact hc.below i hi

/-- An aligned assignment to the entry of its word is a store into what is seen. -/
theorem modify_view (ha : addr % t.sizeof = 0) (hk : addr / 8 ∈ c.keys (hash (addr / 8))) (m : Mem) :
    (c.modify (CowEntry.setWvax t addr value) (addr / 8)).view m =
      store (c.view m) addr t.sizeof value := by
  have hslot := AbufWord.slot_of_aligned ha
  have hin := AbufWord.slot_add_sizeof_le addr t
  obtain ⟨w, hw⟩ := Option.ne_none_iff_exists'.mp fun h => look_eq_none.mp h hk
  have hlook : ∀ k', (c.modify (CowEntry.setWvax t addr value) (addr / 8)).look k' =
      if k' = addr / 8 then some (w.setWvax t addr value) else c.look k' := by
    intro k'
    have hword : valueOf CowEntry.wkey (fun e => (e.setWvax t addr value).wvalue)
        (c.table (hash (addr / 8))) (addr / 8) = (c.look (addr / 8)).map (·.setWvax t addr value) :=
      valueOf_map (fun w : AbufWord => w.setWvax t addr value) _ _
    rw [look_update rfl, CowEntry.valueOf_modifyKey (CowEntry.wkey_setWvax t addr value), hword, hw]
    by_cases heq : k' = addr / 8
    · rw [if_pos (heq ▸ rfl), if_pos heq, if_pos heq]
      rfl
    · rw [if_neg heq, if_neg heq]
      split
      · next hhash => rw [look, hhash]
      · rfl
  refine overlay_store (fun b hb => ?_) hw (by rw [hlook, if_pos rfl]) (fun j => ?_)
    fun k' hk' => by rw [hlook, if_neg hk']
  · omega
  · have hplace : addr ≤ addr / 8 * 8 + j ∧ addr / 8 * 8 + j < addr + t.sizeof ↔
        AbufWord.slot addr t ≤ j ∧ j < AbufWord.slot addr t + t.sizeof := by omega
    have hoff : addr / 8 * 8 + j - addr = j - AbufWord.slot addr t := by omega
    simp only [hplace, hoff]
    rfl

theorem write_of_aligned (ha : addr % t.sizeof = 0) : c.write b mode room m t addr value =
    (c.locate room m (addr / 8) >>= fun c =>
      if mode = .wt then .ok (c, store m addr t.sizeof value)
      else .ok (c.modify (CowEntry.setWvax t addr value) (addr / 8), m)) := by
  rw [write, b.assert_of (by rw [UIntTy.and_sizeof_sub_one, ha]), ok_bind, getWKey_eq]
  rfl

/-- What an aligned write does: the buffer stays well-formed and gets the key of the word. In
`COW_WT` memory is written and the view stays; in `COW_WB` it is the other way round. -/
theorem write_spec (hc : c.WellFormed) (ha : addr % t.sizeof = 0)
    (h : c.write b mode room m t addr value = .ok (c', m')) :
    c'.WellFormed ∧ c'.keys = addKey c.keys (addr / 8) ∧
      if mode = .wt then m' = store m addr t.sizeof value ∧ c'.view m' = c.view m
      else m' = m ∧ c'.view m = store (c.view m) addr t.sizeof value := by
  rw [write_of_aligned ha] at h
  obtain ⟨c1, hloc, h⟩ := bind_eq_ok.mp h
  have hl := locate_spec hc hloc
  have hmem : addr / 8 ∈ c1.keys (hash (addr / 8)) := by
    rw [hl.keys]
    exact mem_addKey _ _
  split at h
  · next hwt =>
    cases h
    refine ⟨hl.wellFormed, hl.keys, ?_⟩
    rw [if_pos hwt, ← hl.view]
    refine ⟨rfl, overlay_congr fun b hb => ?_⟩
    -- the bytes written are those of the located word
    refine store_outside fun hin => look_eq_none.mp hb ?_
    have hword : b / 8 = addr / 8 := by
      have hlt : b - addr < t.sizeof := by omega
      have := aligned_div (W := 8) t.sizeof_dvd ha hlt
      rwa [Nat.add_sub_cancel' hin.1] at this
    rw [hword]
    exact hmem
  · next hwb =>
    cases h
    have hkeys := modify_keys (CowEntry.wkey_setWvax t addr value) c1 (addr / 8)
    refine ⟨hl.wellFormed.of_keys hkeys rfl, hkeys.trans hl.keys, ?_⟩
    · rw [if_neg hwb, modify_view ha hmem, hl.view]
      exact ⟨rfl, rfl⟩

theorem write_error {e : Stop} (hc : c.WellFormed) (ha : addr % t.sizeof = 0)
    (h : c.write b mode room m t addr value = .error e) : e = .fail "no space left" [] := by
  rw [write_of_aligned ha] at h
  rcases bind_eq_error.mp h with h | ⟨c1, -, h⟩
  · exact locate_error hc h
  · split at h <;> cases h

theorem write_total (b : Build) (mode : CowMode) (m : Mem) (value : Nat) (hc : c.WellFormed)
    (ha : addr % t.sizeof = 0) (hlt : ((c.table (hash (addr / 8))).length : Int) + 1 < 2 ^ 30) :
    ∃ c' m', c.write b mode true m t addr value = .ok (c', m') := by
  obtain ⟨c1, hloc⟩ := locate_total (m := m) hc hlt
  rw [write_of_aligned ha, hloc, ok_bind]
  split
  · exact ⟨_, _, rfl⟩
  · exact ⟨_, _, rfl⟩

/-! ## Reads -/

/-- A read through the buffer in `COW_WB` is a read of what is seen. -/
theorem read_wb (ha : addr % t.sizeof = 0) :
    c.read b .wb m t addr = .ok (load (c.view m) addr t.sizeof) := by
  have hmask : addr &&& (t.sizeof - 1) = 0 := by rw [UIntTy.and_sizeof_sub_one, ha]
  have hword : ∀ i < t.sizeof, (addr + i) / 8 = addr / 8 := fun i hi => aligned_div t.sizeof_dvd ha hi
  rw [read, if_neg (by decide), getWKey_eq]
  cases hfind : c.find (addr / 8) with
  | none =>
    have hnone : c.look (addr / 8) = none := by rw [← map_find, hfind]; rfl
    refine congrArg Except.ok (leValue_congr fun i hi => ?_)
    exact (overlay_of_none (by rw [hword i hi, hnone])).symm
  | some e =>
    have hsome : c.look (addr / 8) = some e.wvalue := by rw [← map_find, hfind]; rfl
    rw [Option.elim_some, CowEntry.read, b.assert_of hmask, ok_bind, failIfn_of hmask, ok_bind,
      AbufWord.wvax_of_aligned ha]
    refine congrArg Except.ok (leValue_congr fun i hi => ?_)
    exact (overlay_of_some (by rw [hword i hi, hsome])).symm

end Cow

end LibSei
