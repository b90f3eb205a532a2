import Fzx.Lib.Heap
import Fzx.Lib.Smear
import Fzx.Bytes
/-!
# Items — the item vector (items.cpp, rc_mem.hpp, util.hpp)

An instance holds two handles to shared memory: the bytes of its strings, each padded with zeros to a multiple of 16, and
for each string an entry of 64 bits with its offset and size.  Blocks are never handed back here: the counts of the
handles keep a block alive as long as a handle to it is.

Sizes are plain numbers: the two checks of `allocItem` keep all of them far below 2^64 (`Holds.bytes_le`), so none wraps.
-/
namespace Fzx

open Lib

def kOveralloc : ℕ := 64

/-- `roundPow2` of a `size_t`; the loop shifts by 1, 2, 4, … as long as that is less than the width. -/
def roundPow2 (n : BitVec 64) : BitVec 64 := [1, 2, 4, 8, 16, 32].foldl (fun n i => n ||| n >>> i) (n - 1#64) + 1#64

abbrev Offset := BitVec 64

def kItemOffsetMask : Offset := 0x3FFFFFFFFF
def kItemSizeMask : Offset := 0x1FFFFFF
def kItemSizeShift : ℕ := 38

/-- A handle to shared memory, or null. -/
abbrev RcMem := Option ℕ

/-- The memory behind the handles to strings and behind those to entries. -/
structure Mem where
  strs : Heap UInt8
  items : Heap Offset

/-- No block handed out. -/
def Mem.empty : Mem := { strs := ⟨0, fun _ => ⟨0, fun _ => 0⟩⟩, items := ⟨0, fun _ => ⟨0, fun _ => 0⟩⟩ }

/-- What an allocation gets: memory with whatever was in it, or none. -/
structure Alloc where
  strs : Option (ℕ → UInt8)
  items : Option (ℕ → Offset)

inductive Exn where
  | lengthError (what : String)
  | badAlloc
deriving DecidableEq

structure Items where
  mStrs : RcMem := none
  mItems : RcMem := none
  mStrsSize : ℕ := 0
  mItemsSize : ℕ := 0
  mStrsCap : ℕ := 0
  mItemsCap : ℕ := 0
  mMaxStrSize : ℕ := 0

def Items.size (it : Items) : ℕ := it.mItemsSize

def Items.maxStrSize (it : Items) : ℕ := it.mMaxStrSize

/-- Entry `n` of the items array. -/
def Items.entry (it : Items) (mem : Mem) (n : ℕ) : Offset := (mem.items.read it.mItems n 1).headD 0

def itemOffset (item : Offset) : ℕ := (item &&& kItemOffsetMask).toNat

def itemSize (item : Offset) : ℕ := (item >>> kItemSizeShift &&& kItemSizeMask).toNat

def Items.at (it : Items) (mem : Mem) (n : ℕ) : Bytes :=
  let item := it.entry mem n
  mem.strs.read it.mStrs (itemOffset item) (itemSize item)

/-- The string array is replaced when it is too small. -/
def Items.growStrs (it : Items) (mem : Mem) (a : Alloc) (strsSize : ℕ) : Option (Mem × Items) :=
  if strsSize > it.mStrsCap then
    let cap := (roundPow2 (BitVec.ofNat 64 strsSize)).toNat
    a.strs.map (fun fill =>
      let strs := mem.strs.grow (roundUp kCacheLine (cap + kOveralloc)) fill it.mStrs it.mStrsSize
      ({ mem with strs }, { it with mStrs := some mem.strs.next, mStrsCap := cap }))
  else some (mem, it)

/-- The item array is replaced when it is too small; an entry takes 8 bytes. -/
def Items.growItems (it : Items) (mem : Mem) (a : Alloc) (itemsSize : ℕ) : Option (Mem × Items) :=
  if itemsSize > it.mItemsCap then
    let cap := if it.mItemsCap = 0 then 512 else it.mItemsCap * 2
    a.items.map (fun fill =>
      let items := mem.items.grow (roundUp kCacheLine (cap * 8) / 8) fill it.mItems it.mItemsSize
      ({ mem with items }, { it with mItems := some mem.items.next, mItemsCap := cap }))
  else some (mem, it)

/-- The entry of an item: `mStrsSize | (bytes << kItemSizeShift)`. -/
def pack (mStrsSize bytes : ℕ) : Offset := BitVec.ofNat 64 mStrsSize ||| BitVec.ofNat 64 bytes <<< kItemSizeShift

/-- `allocItem`: where the item begins in the string array, or what is thrown, and the state it leaves. -/
def Items.allocItem (it : Items) (mem : Mem) (a : Alloc) (bytes : ℕ) : Except Exn ℕ × Mem × Items :=
  if bytes > kItemSizeMask.toNat then (.error (.lengthError "item is too big"), mem, it)
  else
    let itemsSize := it.mItemsSize + 1
    if itemsSize > kItemOffsetMask.toNat then (.error (.lengthError "max item count reached"), mem, it)
    else
      let strsSize := it.mStrsSize + roundUp 16 bytes
      match it.growStrs mem a strsSize with
      | none => (.error .badAlloc, mem, it)
      | some (mem, it) =>
        match it.growItems mem a itemsSize with
        | none => (.error .badAlloc, mem, it)
        | some (mem, it) =>
          (.ok it.mStrsSize,
            { mem with items := mem.items.write it.mItems it.mItemsSize [pack it.mStrsSize bytes] },
            { it with mStrsSize := strsSize, mItemsSize := itemsSize })

/-- `push`: what is thrown, and the state it leaves. -/
def Items.push (it : Items) (mem : Mem) (a : Alloc) (s : Bytes) : Except Exn Unit × Mem × Items :=
  if s.isEmpty then (.ok (), mem, it)
  else
    match it.allocItem mem a s.length with
    | (.error e, mem, it) => (.error e, mem, it)
    | (.ok ptr, mem, it) =>
      let strs := mem.strs.write it.mStrs ptr (List.replicate (roundUp 16 s.length) 0)
      let strs := strs.write it.mStrs ptr s
      (.ok (), { mem with strs }, if s.length > it.mMaxStrSize then { it with mMaxStrSize := s.length } else it)

/-! ## What the memory holds

`store` and `entries` are the two arrays that an instance holding the strings `v` has in memory. -/

/-- The strings one after the other, each padded. -/
def store (v : List Bytes) : Bytes := v.flatMap (zeroPad 16)

/-- Where item `i` begins. -/
def offset (v : List Bytes) (i : ℕ) : ℕ := (store (v.take i)).length

/-- The entries of the strings stored from `off` on. -/
def entries (off : ℕ) : List Bytes → List Offset
  | [] => []
  | s :: v => pack off s.length :: entries (off + roundUp 16 s.length) v

/-- A block of the heap with room for `cap` cells and `extra` more; a null handle has no room. -/
def Room {α : Type} (h : Heap α) (p : RcMem) (cap extra : ℕ) : Prop :=
  p.elim (cap = 0) (fun p => p < h.next ∧ cap + extra ≤ (h.block p).size)

/-- **The instance holds the strings `v`.** -/
structure Holds (mem : Mem) (it : Items) (v : List Bytes) : Prop where
  itemsSize : it.mItemsSize = v.length
  strsSize : it.mStrsSize = (store v).length
  strs : mem.strs.read it.mStrs 0 it.mStrsSize = store v
  items : mem.items.read it.mItems 0 it.mItemsSize = entries 0 v
  strsCap : it.mStrsSize ≤ it.mStrsCap
  itemsCap : it.mItemsSize ≤ it.mItemsCap
  strsRoom : Room mem.strs it.mStrs it.mStrsCap kOveralloc
  itemsRoom : Room mem.items it.mItems it.mItemsCap 0
  count : v.length ≤ kItemOffsetMask.toNat
  fits : ∀ s ∈ v, s ≠ [] ∧ s.length ≤ kItemSizeMask.toNat
  maxStrSize : it.mMaxStrSize = (v.map List.length).foldl max 0

/-- The memory that holders of `v` read is kept. -/
structure Mem.Keeps (mem mem' : Mem) (v : List Bytes) : Prop where
  strs : mem.strs.Keeps mem'.strs (store v).length
  items : mem.items.Keeps mem'.items v.length

/-! ### Lists -/

theorem store_append (v w : List Bytes) : store (v ++ w) = store v ++ store w := List.flatMap_append

theorem store_singleton (s : Bytes) : store [s] = zeroPad 16 s := List.flatMap_singleton _ _

theorem length_store_cons (s : Bytes) (v : List Bytes) :
    (store (s :: v)).length = roundUp 16 s.length + (store v).length := by
  rw [store, List.flatMap_cons, List.length_append, length_zeroPad (by decide), store]

theorem length_store_concat (v : List Bytes) (s : Bytes) :
    (store (v ++ [s])).length = (store v).length + roundUp 16 s.length := by
  rw [store_append, store_singleton, List.length_append, length_zeroPad (by decide)]

theorem entries_append (w : List Bytes) : ∀ (v : List Bytes) (off : ℕ),
    entries off (v ++ w) = entries off v ++ entries (off + (store v).length) w
  | [], off => rfl
  | t :: v, off => by
    rw [List.cons_append, entries, entries_append w v, entries, length_store_cons, List.cons_append, Nat.add_assoc]

@[simp] theorem length_entries : ∀ (v : List Bytes) (off : ℕ), (entries off v).length = v.length
  | [], _ => rfl
  | _ :: v, _ => congrArg Nat.succ (length_entries v _)

/-- The strings around item `i`. -/
theorem eq_take_append {v : List Bytes} {i : ℕ} (hi : i < v.length) : v = v.take i ++ [v[i]] ++ v.drop (i + 1) := by
  rw [List.append_assoc, List.singleton_append, ← List.drop_eq_getElem_cons hi, List.take_append_drop]

theorem store_eq {v : List Bytes} {i : ℕ} (hi : i < v.length) :
    store v = store (v.take i) ++ zeroPad 16 v[i] ++ store (v.drop (i + 1)) := by
  conv => lhs; rw [eq_take_append hi]
  rw [store_append, store_append, store_singleton]

theorem offset_succ {v : List Bytes} {i : ℕ} (hi : i < v.length) :
    offset v (i + 1) = offset v i + roundUp 16 v[i].length := by
  rw [offset, offset, List.take_succ_eq_append_getElem hi, length_store_concat]

theorem length_store_of_prefix {v w : List Bytes} (h : v <+: w) : (store v).length ≤ (store w).length := by
  obtain ⟨u, rfl⟩ := h
  rw [store_append, List.length_append]
  exact Nat.le_add_right _ _

theorem offset_mono (v : List Bytes) {i j : ℕ} (h : i ≤ j) : offset v i ≤ offset v j :=
  length_store_of_prefix (List.take_prefix_take_left h)

theorem offset_length (v : List Bytes) : offset v v.length = (store v).length := by
  rw [offset, List.take_length]

theorem offset_add_le {v : List Bytes} {i : ℕ} (hi : i < v.length) :
    offset v i + roundUp 16 v[i].length ≤ (store v).length := by
  have hmono := offset_mono v hi
  rwa [offset_succ hi, offset_length] at hmono

theorem length_store_mod : ∀ v : List Bytes, (store v).length % 16 = 0
  | [] => rfl
  | s :: v => by
    have ih := length_store_mod v
    rw [length_store_cons, Nat.add_mod, roundUp_mod, Nat.zero_add, Nat.mod_mod]
    exact ih

theorem length_store_le : ∀ {v : List Bytes}, (∀ s ∈ v, s ≠ [] ∧ s.length ≤ kItemSizeMask.toNat) →
    (store v).length ≤ v.length * 2 ^ 25
  | [], _ => Nat.le_refl 0
  | s :: v, h => by
    have hs : s.length ≤ 2 ^ 25 - 1 := (h s List.mem_cons_self).2
    have hr : roundUp 16 s.length ≤ 16 * 2 ^ 21 := roundUp_le (by omega)
    have ih := length_store_le (fun t ht => h t (List.mem_cons_of_mem s ht))
    rw [length_store_cons, List.length_cons]
    omega

theorem le_length_store : ∀ {v : List Bytes}, (∀ s ∈ v, s ≠ [] ∧ s.length ≤ kItemSizeMask.toNat) →
    v.length * 16 ≤ (store v).length
  | [], _ => Nat.le_refl 0
  | s :: v, h => by
    have hpos := roundUp_pos (List.length_pos_iff.2 (h s List.mem_cons_self).1)
    have hmod := roundUp_mod (N := 16) s.length
    have ih := le_length_store (fun t ht => h t (List.mem_cons_of_mem s ht))
    rw [length_store_cons, List.length_cons]
    omega

/-- **No size wraps**: the two checks bound the string array far below 2^64 bytes, one more string included. -/
theorem Holds.bytes_le {mem : Mem} {it : Items} {v : List Bytes} (h : Holds mem it v) {n : ℕ}
    (hn : n ≤ kItemSizeMask.toNat) : it.mStrsSize + roundUp 16 n ≤ 2 ^ 63 := by
  have hle := length_store_le h.fits
  have hcount : v.length ≤ 2 ^ 38 - 1 := h.count
  have hn : n ≤ 2 ^ 25 - 1 := hn
  have hr : roundUp 16 n ≤ 16 * 2 ^ 21 := roundUp_le (by omega)
  rw [h.strsSize]
  omega

/-! ### Powers of two -/

/-- The loop of `roundPow2` smears the bits of `n - 1` over the whole width. -/
theorem roundPow2_eq_smear (n : BitVec 64) : roundPow2 n = smear ((List.range 6).map (2 ^ ·)) (n - 1#64) + 1#64 := rfl

/-- **`roundPow2` is the power of two** above `n - 1`. -/
theorem toNat_roundPow2 {n : BitVec 64} (h0 : 1 ≤ n.toNat) (h : n.toNat ≤ 2 ^ 63) :
    (roundPow2 n).toNat = 2 ^ Nat.size (n.toNat - 1) := by
  have hpred : (n - 1#64).toNat = n.toNat - 1 := by bv_omega
  have hsmear := (smeared_smear (n - 1#64) 6).toNat_eq (Nat.le_refl 64)
  rw [hpred] at hsmear
  have hsize : Nat.size (n.toNat - 1) ≤ 63 := Nat.size_le.2 (by omega)
  have hle : 2 ^ Nat.size (n.toNat - 1) ≤ 2 ^ 63 := Nat.pow_le_pow_right Nat.two_pos hsize
  have hpos := Nat.two_pow_pos (Nat.size (n.toNat - 1))
  rw [roundPow2_eq_smear, BitVec.toNat_add, hsmear, show (1#64).toNat = 1 from rfl, Nat.sub_add_cancel hpos,
    Nat.mod_eq_of_lt (by omega)]

/-- **`roundPow2` does not round down.** -/
theorem le_roundPow2 {n : ℕ} (h0 : 0 < n) (h : n ≤ 2 ^ 63) : n ≤ (roundPow2 (BitVec.ofNat 64 n)).toNat := by
  have hn : (BitVec.ofNat 64 n).toNat = n := Nat.mod_eq_of_lt (by omega)
  rw [toNat_roundPow2 (by omega) (by omega), hn]
  have hlt := Nat.lt_size_self (n - 1)
  omega

/-! ### Entries -/

theorem toNat_pack {o n : ℕ} (ho : o < 2 ^ 64) (hn : n < 2 ^ 25) : (pack o n).toNat = o ||| n <<< 38 := by
  have hs : n <<< 38 < 2 ^ 64 := by
    rw [Nat.shiftLeft_eq]
    omega
  rw [pack, BitVec.toNat_or, BitVec.toNat_shiftLeft, BitVec.toNat_ofNat, BitVec.toNat_ofNat, Nat.mod_eq_of_lt ho,
    Nat.mod_eq_of_lt (by omega : n < 2 ^ 64), kItemSizeShift, Nat.mod_eq_of_lt hs]

/-- The offset that an entry gives back is cut to 38 bits. -/
theorem itemOffset_pack {o n : ℕ} (ho : o < 2 ^ 64) (hn : n < 2 ^ 25) : itemOffset (pack o n) = o % 2 ^ 38 := by
  have hmask : kItemOffsetMask.toNat = 2 ^ 38 - 1 := rfl
  rw [itemOffset, BitVec.toNat_and, toNat_pack ho hn, hmask, Nat.and_two_pow_sub_one_eq_mod, Nat.or_mod_two_pow,
    Nat.shiftLeft_eq, Nat.mul_mod_left, Nat.or_zero]

/-- The size that an entry gives back has the offset's upper bits mixed in. -/
theorem itemSize_pack {o n : ℕ} (ho : o < 2 ^ 64) (hn : n < 2 ^ 25) :
    itemSize (pack o n) = (o / 2 ^ 38 ||| n) % 2 ^ 25 := by
  have hmask : kItemSizeMask.toNat = 2 ^ 25 - 1 := rfl
  rw [itemSize, BitVec.toNat_and, BitVec.toNat_ushiftRight, toNat_pack ho hn, hmask, Nat.and_two_pow_sub_one_eq_mod,
    kItemSizeShift, Nat.shiftRight_or_distrib, Nat.shiftLeft_shiftRight, Nat.shiftRight_eq_div_pow]

theorem itemSize_pack_of_lt {o n : ℕ} (ho : o < 2 ^ 38) (hn : n < 2 ^ 25) : itemSize (pack o n) = n := by
  rw [itemSize_pack (by omega) hn, Nat.div_eq_of_lt ho, Nat.zero_or, Nat.mod_eq_of_lt hn]

/-! ## The frame -/

theorem Room.lt {α : Type} {h : Heap α} {p : RcMem} {cap extra : ℕ} (hr : Room h p cap extra) :
    ∀ q, p = some q → q < h.next := by
  intro q hq
  rw [hq] at hr
  exact hr.1

theorem Room.keeps {α : Type} {h h' : Heap α} {p : RcMem} {cap extra n : ℕ} (hr : Room h p cap extra)
    (hk : h.Keeps h' n) : Room h' p cap extra := by
  cases p with
  | none => exact hr
  | some p =>
    have hlt : p < h.next := hr.1
    refine ⟨Nat.lt_of_lt_of_le hlt hk.next, ?_⟩
    rw [hk.size p hlt]
    exact hr.2

/-- **A holder does not see what is written behind its strings.** -/
theorem Holds.keeps {mem mem' : Mem} {it : Items} {v w : List Bytes} (h : Holds mem it v) (hk : mem.Keeps mem' w)
    (hp : v <+: w) : Holds mem' it v where
  itemsSize := h.itemsSize
  strsSize := h.strsSize
  strs := by
    rw [← h.strs]
    refine hk.strs.read h.strsRoom.lt ?_
    rw [Nat.zero_add, h.strsSize]
    exact length_store_of_prefix hp
  items := by
    rw [← h.items]
    refine hk.items.read h.itemsRoom.lt ?_
    rw [Nat.zero_add, h.itemsSize]
    exact hp.length_le
  strsCap := h.strsCap
  itemsCap := h.itemsCap
  strsRoom := h.strsRoom.keeps hk.strs
  itemsRoom := h.itemsRoom.keeps hk.items
  count := h.count
  fits := h.fits
  maxStrSize := h.maxStrSize

theorem Mem.Keeps.refl (mem : Mem) (v : List Bytes) : mem.Keeps mem v := ⟨Heap.Keeps.refl _ _, Heap.Keeps.refl _ _⟩

theorem holds_nil (mem : Mem) : Holds mem {} [] where
  itemsSize := rfl
  strsSize := rfl
  strs := rfl
  items := rfl
  strsCap := Nat.le_refl 0
  itemsCap := Nat.le_refl 0
  strsRoom := rfl
  itemsRoom := rfl
  count := Nat.zero_le _
  fits := nofun
  maxStrSize := rfl

/-! ## Growing -/

/-- **Replacing the string array** changes nothing that any holder reads. -/
theorem growStrs_spec {mem mem' : Mem} {it it' : Items} {v : List Bytes} {a : Alloc} {n : ℕ} (h : Holds mem it v)
    (h0 : 0 < n) (hn : n ≤ 2 ^ 63) (hle : it.mStrsSize ≤ n) (hg : it.growStrs mem a n = some (mem', it')) :
    Holds mem' it' v ∧ n ≤ it'.mStrsCap ∧ ∀ w, mem.Keeps mem' w := by
  unfold Items.growStrs at hg
  split at hg
  · obtain ⟨fill, -, hg⟩ := Option.map_eq_some_iff.1 hg
    cases hg
    generalize hcap : (roundPow2 (BitVec.ofNat 64 n)).toNat = cap
    have hncap : n ≤ cap := by
      rw [← hcap]
      exact le_roundPow2 h0 hn
    generalize hsize : roundUp kCacheLine (cap + kOveralloc) = size
    have hroom : cap + kOveralloc ≤ size := by
      rw [← hsize]
      exact le_roundUp (by decide) _
    have hk : ∀ w, mem.Keeps { mem with strs := mem.strs.grow size fill it.mStrs it.mStrsSize } w := fun w =>
      ⟨mem.strs.keeps_grow size fill it.mStrs it.mStrsSize _, Heap.Keeps.refl _ _⟩
    refine ⟨?_, hncap, hk⟩
    have hold := h.keeps (hk v) (List.prefix_refl v)
    refine { hold with strs := ?_, strsCap := Nat.le_trans hle hncap, strsRoom := ?_ }
    · exact mem.strs.read_grow size fill h.strsRoom.lt h.strs h.strsSize.symm
    · refine ⟨?_, ?_⟩
      · rw [Heap.next_grow]
        exact Nat.lt_succ_self _
      · dsimp only
        rw [Heap.size_grow]
        exact hroom
  · rename_i hcap
    cases hg
    exact ⟨h, Nat.le_of_not_lt hcap, fun w => Mem.Keeps.refl _ w⟩

/-- **Replacing the item array** changes nothing that any holder reads. -/
theorem growItems_spec {mem mem' : Mem} {it it' : Items} {v : List Bytes} {a : Alloc} (h : Holds mem it v)
    (hg : it.growItems mem a (it.mItemsSize + 1) = some (mem', it')) :
    Holds mem' it' v ∧ v.length + 1 ≤ it'.mItemsCap ∧ it'.mStrsCap = it.mStrsCap ∧ ∀ w, mem.Keeps mem' w := by
  unfold Items.growItems at hg
  have hsize := h.itemsSize
  have hcaple := h.itemsCap
  split at hg
  · rename_i hlt
    obtain ⟨fill, -, hg⟩ := Option.map_eq_some_iff.1 hg
    cases hg
    generalize hcap : (if it.mItemsCap = 0 then 512 else it.mItemsCap * 2) = cap
    have hncap : v.length + 1 ≤ cap := by
      rw [← hcap]
      split <;> omega
    generalize hsz : roundUp kCacheLine (cap * 8) / 8 = size
    have hroom : cap ≤ size := by
      have := le_roundUp (N := kCacheLine) (by decide) (cap * 8)
      omega
    have hk : ∀ w, mem.Keeps { mem with items := mem.items.grow size fill it.mItems it.mItemsSize } w := fun w =>
      ⟨Heap.Keeps.refl _ _, mem.items.keeps_grow size fill it.mItems it.mItemsSize _⟩
    refine ⟨?_, hncap, rfl, hk⟩
    have hold := h.keeps (hk v) (List.prefix_refl v)
    refine { hold with items := ?_, itemsCap := by dsimp only; omega, itemsRoom := ?_ }
    · refine mem.items.read_grow size fill h.itemsRoom.lt h.items ?_
      rw [length_entries, h.itemsSize]
    · refine ⟨?_, ?_⟩
      · rw [Heap.next_grow]
        exact Nat.lt_succ_self _
      · dsimp only
        rw [Heap.size_grow]
        exact hroom
  · rename_i hle
    cases hg
    exact ⟨h, by omega, rfl, fun w => Mem.Keeps.refl _ w⟩

/-! ## Pushing -/

theorem Room.exists_eq {α : Type} {h : Heap α} {p : RcMem} {cap extra : ℕ} (hr : Room h p cap extra) (h0 : 0 < cap) :
    ∃ q, p = some q := by
  cases p with
  | none => exact absurd hr (Nat.ne_of_gt h0)
  | some q => exact ⟨q, rfl⟩

/-- **What `allocItem` does**: it throws and leaves what the instance holds, or it has room for the item in both arrays and
writes its entry. -/
theorem allocItem_cases {mem : Mem} {it : Items} {v : List Bytes} (h : Holds mem it v) (a : Alloc) {bytes : ℕ}
    (h0 : 0 < bytes) :
    (∃ e mem' it', it.allocItem mem a bytes = (.error e, mem', it') ∧ Holds mem' it' v ∧ ∀ w, mem.Keeps mem' w) ∨
    ∃ mem' it' p q, bytes ≤ kItemSizeMask.toNat ∧ v.length + 1 ≤ kItemOffsetMask.toNat ∧ Holds mem' it' v ∧
      (∀ w, mem.Keeps mem' w) ∧ it'.mStrs = some p ∧ it'.mItems = some q ∧
      (store v).length + roundUp 16 bytes ≤ it'.mStrsCap ∧ v.length + 1 ≤ it'.mItemsCap ∧
      it.allocItem mem a bytes = (.ok (store v).length,
        { mem' with items := mem'.items.write (some q) v.length [pack (store v).length bytes] },
        { it' with mStrsSize := (store v).length + roundUp 16 bytes, mItemsSize := v.length + 1 }) := by
  unfold Items.allocItem
  by_cases hbytes : bytes > kItemSizeMask.toNat
  · exact .inl ⟨_, mem, it, by rw [if_pos hbytes], h, fun w => Mem.Keeps.refl _ w⟩
  rw [if_neg hbytes]
  by_cases hcount : it.mItemsSize + 1 > kItemOffsetMask.toNat
  · exact .inl ⟨_, mem, it, by dsimp only; rw [if_pos hcount], h, fun w => Mem.Keeps.refl _ w⟩
  dsimp only
  rw [if_neg hcount]
  have hpos := roundUp_pos h0
  cases hs : it.growStrs mem a (it.mStrsSize + roundUp 16 bytes) with
  | none => exact .inl ⟨_, mem, it, rfl, h, fun w => Mem.Keeps.refl _ w⟩
  | some r =>
    obtain ⟨mem₁, it₁⟩ := r
    obtain ⟨h₁, hcap₁, hk₁⟩ := growStrs_spec h (by omega) (h.bytes_le (Nat.le_of_not_lt hbytes)) (by omega) hs
    have hsize : it.mItemsSize = it₁.mItemsSize := by rw [h.itemsSize, h₁.itemsSize]
    dsimp only
    rw [hsize]
    cases hi : it₁.growItems mem₁ a (it₁.mItemsSize + 1) with
    | none => exact .inl ⟨_, mem₁, it₁, rfl, h₁, hk₁⟩
    | some r =>
      obtain ⟨mem₂, it₂⟩ := r
      obtain ⟨h₂, hcap₂, hcap, hk₂⟩ := growItems_spec h₁ hi
      have hcap₁ : (store v).length + roundUp 16 bytes ≤ it₂.mStrsCap := by
        rw [hcap, ← h.strsSize]
        exact hcap₁
      obtain ⟨p, hp⟩ := h₂.strsRoom.exists_eq (by omega)
      obtain ⟨q, hq⟩ := h₂.itemsRoom.exists_eq (by omega)
      refine .inr ⟨mem₂, it₂, p, q, Nat.le_of_not_lt hbytes, ?_, h₂, fun w => ?_, hp, hq, hcap₁, hcap₂, ?_⟩
      · rw [← h.itemsSize]
        exact Nat.le_of_not_lt hcount
      · exact ⟨(hk₁ w).strs.trans (hk₂ w).strs, (hk₁ w).items.trans (hk₂ w).items⟩
      · dsimp only
        rw [h₂.strsSize, h₂.itemsSize, h₁.itemsSize, h.strsSize, hq]

/-- **One more string**, written behind the others. -/
theorem Holds.concat {mem : Mem} {it : Items} {v : List Bytes} {s : Bytes} {p q : ℕ} (h : Holds mem it v)
    (hp : it.mStrs = some p) (hq : it.mItems = some q) (hne : s ≠ []) (hbytes : s.length ≤ kItemSizeMask.toNat)
    (hcount : v.length + 1 ≤ kItemOffsetMask.toNat) (hcap : (store v).length + roundUp 16 s.length ≤ it.mStrsCap)
    (hicap : v.length + 1 ≤ it.mItemsCap) :
    Holds { strs := (mem.strs.write (some p) (store v).length (List.replicate (roundUp 16 s.length) 0)).write (some p)
              (store v).length s
            items := mem.items.write (some q) v.length [pack (store v).length s.length] }
      { it with mStrsSize := (store v).length + roundUp 16 s.length, mItemsSize := v.length + 1
                mMaxStrSize := max it.mMaxStrSize s.length } (v ++ [s]) where
  itemsSize := by rw [List.length_append, List.length_singleton]
  strsSize := (length_store_concat v s).symm
  strs := by
    have hlen : s.length ≤ (List.replicate (roundUp 16 s.length) (0 : UInt8)).length := by
      rw [List.length_replicate]
      exact le_roundUp (by decide) _
    have hnew := Heap.read_write_write mem.strs p (store v).length hlen
    rw [List.length_replicate, List.drop_replicate] at hnew
    have hold := h.strs
    rw [hp, h.strsSize] at hold
    dsimp only
    rw [hp, Heap.read_add, Nat.zero_add, hnew, Heap.read_write_of_disjoint _ _ (.inl (by omega)),
      Heap.read_write_of_disjoint _ _ (.inl (by omega)), hold, store_append, store_singleton, zeroPad]
  items := by
    have hold := h.items
    rw [hq, h.itemsSize] at hold
    have hnew := Heap.read_write_all mem.items q v.length [pack (store v).length s.length]
    rw [List.length_singleton] at hnew
    dsimp only
    rw [hq, Heap.read_add, Nat.zero_add, hnew, Heap.read_write_of_disjoint _ _ (.inl (by omega)), hold, entries_append,
      Nat.zero_add]
    rfl
  strsCap := hcap
  itemsCap := hicap
  strsRoom := by
    have hr := h.strsRoom
    rw [hp] at hr
    dsimp only
    rw [hp]
    refine ⟨?_, ?_⟩
    · rw [Heap.next_write, Heap.next_write]
      exact hr.1
    · rw [Heap.size_write, Heap.size_write]
      exact hr.2
  itemsRoom := by
    have hr := h.itemsRoom
    rw [hq] at hr
    dsimp only
    rw [hq]
    refine ⟨?_, ?_⟩
    · rw [Heap.next_write]
      exact hr.1
    · rw [Heap.size_write]
      exact hr.2
  count := by rwa [List.length_append, List.length_singleton]
  fits := fun t ht => by
    rcases List.mem_append.1 ht with ht | ht
    · exact h.fits t ht
    · rw [List.mem_singleton.1 ht]
      exact ⟨hne, hbytes⟩
  maxStrSize := by
    dsimp only
    rw [h.maxStrSize, List.map_append, List.foldl_append]
    rfl

/-- What an instance that holds `v` holds after `s` is pushed. -/
def pushed (v : List Bytes) (s : Bytes) : Except Exn Unit → List Bytes
  | .ok () => if s.isEmpty then v else v ++ [s]
  | .error _ => v

/-- **A push** appends the string or throws and changes nothing, and no holder of a part of `v` sees it. -/
theorem push_spec {mem mem' : Mem} {it it' : Items} {v : List Bytes} {a : Alloc} {s : Bytes} {r : Except Exn Unit}
    (h : Holds mem it v) (hp : it.push mem a s = (r, mem', it')) : Holds mem' it' (pushed v s r) ∧ mem.Keeps mem' v := by
  unfold Items.push at hp
  by_cases hs : s.isEmpty = true
  · rw [if_pos hs] at hp
    cases hp
    rw [pushed, if_pos hs]
    exact ⟨h, Mem.Keeps.refl mem v⟩
  rw [if_neg hs] at hp
  have hne : s ≠ [] := by simpa using hs
  rcases allocItem_cases h a (List.length_pos_iff.2 hne) with ⟨e, mem₁, it₁, he, h₁, hk⟩ |
    ⟨mem₁, it₁, p, q, hbytes, hcount, h₁, hk, hpe, hqe, hcap, hicap, he⟩
  · rw [he] at hp
    cases hp
    exact ⟨h₁, hk v⟩
  · rw [he] at hp
    dsimp only at hp
    rw [hpe] at hp
    cases hp
    rw [pushed, if_neg hs]
    have hconcat := h₁.concat hpe hqe hne hbytes hcount hcap hicap
    rw [hpe] at hconcat
    have hstrs := ((hk v).strs.write (p := some p) (.inr (Nat.le_refl _)) (List.replicate (roundUp 16 s.length) 0)).write
      (p := some p) (.inr (Nat.le_refl _)) s
    have hitems := (hk v).items.write (p := some q) (.inr (Nat.le_refl _)) [pack (store v).length s.length]
    refine ⟨?_, hstrs, hitems⟩
    split
    · rename_i hmax
      rwa [max_eq_right (Nat.le_of_lt hmax)] at hconcat
    · rename_i hmax
      rwa [max_eq_left (Nat.le_of_not_lt hmax)] at hconcat

theorem growStrs_isSome {it : Items} {mem : Mem} {a : Alloc} {n : ℕ} (ha : a.strs.isSome = true) :
    (it.growStrs mem a n).isSome = true := by
  unfold Items.growStrs
  split
  · rwa [Option.isSome_map]
  · rfl

theorem growItems_isSome {it : Items} {mem : Mem} {a : Alloc} {n : ℕ} (ha : a.items.isSome = true) :
    (it.growItems mem a n).isSome = true := by
  unfold Items.growItems
  split
  · rwa [Option.isSome_map]
  · rfl

/-- With memory available only the two length checks throw. -/
theorem push_ok {mem : Mem} {it : Items} {a : Alloc} {s : Bytes} (ha : a.strs.isSome = true ∧ a.items.isSome = true)
    (hs : s.length ≤ kItemSizeMask.toNat) (hcount : it.mItemsSize + 1 ≤ kItemOffsetMask.toNat) :
    ∃ mem' it', it.push mem a s = (.ok (), mem', it') := by
  unfold Items.push
  split
  · exact ⟨mem, it, rfl⟩
  · obtain ⟨⟨mem₁, it₁⟩, h₁⟩ := Option.isSome_iff_exists.1 (growStrs_isSome ha.1)
    obtain ⟨⟨mem₂, it₂⟩, h₂⟩ := Option.isSome_iff_exists.1 (growItems_isSome ha.2)
    have halloc : ∃ ptr mem' it', it.allocItem mem a s.length = (.ok ptr, mem', it') := by
      unfold Items.allocItem
      rw [if_neg (Nat.not_lt_of_le hs)]
      dsimp only
      rw [if_neg (Nat.not_lt_of_le hcount), h₁]
      dsimp only
      rw [h₂]
      exact ⟨_, _, _, rfl⟩
    obtain ⟨ptr, mem', it', halloc⟩ := halloc
    rw [halloc]
    exact ⟨_, _, rfl⟩

/-! ## Reading -/

theorem Holds.entry_eq {mem : Mem} {it : Items} {v : List Bytes} (h : Holds mem it v) {i : ℕ} (hi : i < v.length) :
    it.entry mem i = pack (offset v i) v[i].length := by
  have hentries : entries 0 v = entries 0 (v.take i) ++ [pack (offset v i) v[i].length] ++
      entries (offset v (i + 1)) (v.drop (i + 1)) := by
    conv => lhs; rw [eq_take_append hi]
    rw [entries_append, entries_append, Nat.zero_add, Nat.zero_add, ← List.take_succ_eq_append_getElem hi, offset, offset]
    rfl
  have hr := Heap.read_of_read_eq (h.items.trans hentries)
  rw [length_entries, List.length_take, Nat.min_eq_left (Nat.le_of_lt hi), Nat.zero_add, List.length_singleton] at hr
  rw [Items.entry, hr]
  rfl

/-- The bytes of item `i` and the zeros after it. -/
theorem Holds.read_item {mem : Mem} {it : Items} {v : List Bytes} (h : Holds mem it v) {i : ℕ} (hi : i < v.length) :
    mem.strs.read it.mStrs (offset v i) (roundUp 16 v[i].length) = zeroPad 16 v[i] := by
  have hr := Heap.read_of_read_eq (h.strs.trans (store_eq hi))
  rwa [Nat.zero_add, length_zeroPad (by decide)] at hr

theorem Holds.read_string {mem : Mem} {it : Items} {v : List Bytes} (h : Holds mem it v) {i : ℕ} (hi : i < v.length) :
    mem.strs.read it.mStrs (offset v i) v[i].length = v[i] := by
  have hr : mem.strs.read it.mStrs (offset v i) (roundUp 16 v[i].length) = [] ++ v[i] ++
      List.replicate (roundUp 16 v[i].length - v[i].length) 0 := h.read_item hi
  exact Heap.read_of_read_eq hr

theorem Holds.size_lt {mem : Mem} {it : Items} {v : List Bytes} (h : Holds mem it v) {i : ℕ} (hi : i < v.length) :
    v[i].length < 2 ^ 25 := Nat.lt_succ_of_le (h.fits _ (List.getElem_mem hi)).2

theorem Holds.offset_lt {mem : Mem} {it : Items} {v : List Bytes} (h : Holds mem it v) {i : ℕ} (hi : i < v.length) :
    offset v i < 2 ^ 64 := by
  have hle := h.bytes_le (Nat.zero_le _)
  have hmono := offset_mono v (Nat.le_of_lt hi)
  rw [offset_length] at hmono
  rw [h.strsSize] at hle
  omega

/-- **An item whose offset fits its 38 bits is read back.** -/
theorem Holds.at_eq {mem : Mem} {it : Items} {v : List Bytes} (h : Holds mem it v) {i : ℕ} (hi : i < v.length)
    (ho : offset v i < 2 ^ 38) : it.at mem i = v[i] := by
  rw [Items.at, h.entry_eq hi, itemOffset_pack (h.offset_lt hi) (h.size_lt hi), itemSize_pack_of_lt ho (h.size_lt hi),
    Nat.mod_eq_of_lt ho, h.read_string hi]

end Fzx
