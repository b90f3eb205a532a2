import Fzx.Items
/-!
# ItemsPacked — the entries and the checks of `allocItem` (items.cpp)

An entry has 38 bits for the offset of an item in the string array.  What `allocItem` checks against their mask is the
number of the items, not the bytes before the item, so that it takes items whose offsets do not fit.  The upper bits of
such an offset end up in the entry's size (`represented_iff`).
-/
namespace Fzx

open Lib

/-- Pushes one after the other; `none` where one throws. -/
def pushAll : List (Alloc × Bytes) → Mem → Items → Option (Mem × Items)
  | [], mem, it => some (mem, it)
  | (a, s) :: pushes, mem, it =>
    match it.push mem a s with
    | (.ok (), mem, it) => pushAll pushes mem it
    | (.error _, _, _) => none

/-- The strings of pushes that `push` does not ignore. -/
def strings (pushes : List (Alloc × Bytes)) : List Bytes := (pushes.map Prod.snd).filter (fun s => !s.isEmpty)

/-! ## What is promised -/

/-- Every entry gives its item's place and size. -/
def Represented (mem : Mem) (it : Items) (v : List Bytes) : Prop :=
  ∀ i, ∀ hi : i < v.length, itemOffset (it.entry mem i) = offset v i ∧ itemSize (it.entry mem i) = v[i].length

/-- Every item is read back. -/
def ReadBack (mem : Mem) (it : Items) (v : List Bytes) : Prop := ∀ i, ∀ hi : i < v.length, it.at mem i = v[i]

/-- An item that is read back although its offset is cut: its size has all the bits that the offset puts there, and the
bytes stored where the cut offset leads are the same. -/
def Coincides (v : List Bytes) (i : ℕ) (s : Bytes) : Prop :=
  (offset v i / 2 ^ 38 ||| s.length) % 2 ^ 25 = s.length ∧ ((store v).drop (offset v i % 2 ^ 38)).take s.length = s

/-! ## Pushes that do not throw -/

theorem pushAll_cons {a : Alloc} {s : Bytes} {pushes : List (Alloc × Bytes)} {mem : Mem} {it : Items} {r : Mem × Items} :
    pushAll ((a, s) :: pushes) mem it = some r ↔
      ∃ mem' it', it.push mem a s = (.ok (), mem', it') ∧ pushAll pushes mem' it' = some r := by
  rw [pushAll]
  constructor
  · intro h
    split at h
    · rename_i mem' it' hp
      exact ⟨mem', it', hp, h⟩
    · cases h
  · rintro ⟨mem', it', hp, h⟩
    rw [hp]
    exact h

/-- **Every push that does not throw appends its string.** -/
theorem holds_pushAll : ∀ {pushes : List (Alloc × Bytes)} {mem mem' : Mem} {it it' : Items} {v : List Bytes},
    Holds mem it v → pushAll pushes mem it = some (mem', it') → Holds mem' it' (v ++ strings pushes)
  | [], _, _, _, _, v, h, hr => by
    cases hr
    rwa [strings, List.map_nil, List.filter_nil, List.append_nil]
  | (a, s) :: pushes, _, _, _, _, v, h, hr => by
    obtain ⟨mem₁, it₁, hp, hr⟩ := pushAll_cons.1 hr
    have ih := holds_pushAll (push_spec h hp).1 hr
    have hv : pushed v s (.ok ()) ++ strings pushes = v ++ strings ((a, s) :: pushes) := by
      rw [strings, strings, List.map_cons, pushed]
      cases s with
      | nil => rfl
      | cons c s => exact List.append_assoc _ _ _
    rwa [hv] at ih

/-! ## When items are read back -/

theorem Holds.represented_iff_offset_lt {mem : Mem} {it : Items} {v : List Bytes} (h : Holds mem it v) :
    Represented mem it v ↔ ∀ i, i < v.length → offset v i < 2 ^ 38 := by
  constructor
  · intro hr i hi
    have ho := (hr i hi).1
    rw [h.entry_eq hi, itemOffset_pack (h.offset_lt hi) (h.size_lt hi)] at ho
    rw [← ho]
    exact Nat.mod_lt _ (by decide)
  · intro hlt i hi
    rw [h.entry_eq hi, itemOffset_pack (h.offset_lt hi) (h.size_lt hi), itemSize_pack_of_lt (hlt i hi) (h.size_lt hi)]
    exact ⟨Nat.mod_eq_of_lt (hlt i hi), rfl⟩

theorem Holds.mStrs_eq {mem : Mem} {it : Items} {v : List Bytes} (h : Holds mem it v) {i : ℕ} (hi : i < v.length) :
    ∃ p, it.mStrs = some p := by
  have hpos := roundUp_pos (List.length_pos_iff.2 (h.fits _ (List.getElem_mem hi)).1)
  have hle := offset_add_le hi
  have hcap := h.strsCap
  rw [h.strsSize] at hcap
  exact h.strsRoom.exists_eq (by omega)

/-- **Exactly when `at` gives the item.** -/
theorem Holds.at_eq_iff {mem : Mem} {it : Items} {v : List Bytes} (h : Holds mem it v) {i : ℕ} (hi : i < v.length) :
    it.at mem i = v[i] ↔ Coincides v i v[i] := by
  have hmod : offset v i % 2 ^ 38 + v[i].length ≤ (store v).length :=
    Nat.le_trans (Nat.add_le_add (Nat.mod_le _ _) (le_roundUp (by decide) _)) (offset_add_le hi)
  rw [Items.at, h.entry_eq hi, itemOffset_pack (h.offset_lt hi) (h.size_lt hi),
    itemSize_pack (h.offset_lt hi) (h.size_lt hi)]
  constructor
  · intro hat
    obtain ⟨p, hp⟩ := h.mStrs_eq hi
    have hlen := congrArg List.length hat
    rw [hp, Heap.length_read_some] at hlen
    refine ⟨hlen, ?_⟩
    rwa [hlen, Heap.read_drop_take h.strs hmod] at hat
  · rintro ⟨hlen, hbytes⟩
    rw [hlen, Heap.read_drop_take h.strs hmod, hbytes]

/-- **When the packed entries are right**: after pushes of which none throws, every entry represents its item exactly when
every offset is below 2^38, and then every item is read back; beyond that, the items that are read back are those that
coincide with the bytes at their cut offsets. -/
theorem represented_iff (mem mem' : Mem) (it : Items) (pushes : List (Alloc × Bytes))
    (hpush : pushAll pushes mem {} = some (mem', it)) :
    it.size = (strings pushes).length ∧
      ((Represented mem' it (strings pushes) ∧ ReadBack mem' it (strings pushes)) ↔
        ∀ i, i < (strings pushes).length → offset (strings pushes) i < 2 ^ 38) ∧
      (ReadBack mem' it (strings pushes) ↔
        ∀ i, ∀ hi : i < (strings pushes).length, offset (strings pushes) i < 2 ^ 38 ∨
          Coincides (strings pushes) i (strings pushes)[i]) := by
  have h := holds_pushAll (holds_nil mem) hpush
  rw [List.nil_append] at h
  have hrep := h.represented_iff_offset_lt
  refine ⟨h.itemsSize, ⟨fun hr => hrep.1 hr.1, fun hlt => ⟨hrep.2 hlt, fun i hi => ?_⟩⟩,
    fun hr i hi => .inr ((h.at_eq_iff hi).1 (hr i hi)), fun hc i hi => ?_⟩
  · exact h.at_eq hi (hlt i hi)
  · rcases hc i hi with hlt | hc
    · exact h.at_eq hi hlt
    · exact (h.at_eq_iff hi).2 hc

theorem represented_iff_ab : ∃ mem it, pushAll [(⟨some (fun _ => 7), some (fun _ => 9)⟩, [97]), (⟨none, none⟩, []),
      (⟨some (fun _ => 7), none⟩, [98])] .empty {} = some (mem, it) ∧
    it.size = 2 ∧ ReadBack mem it [[97], [98]] := by
  have hiff := represented_iff .empty _ _
    [(⟨some (fun _ => 7), some (fun _ => 9)⟩, [97]), (⟨none, none⟩, []), (⟨some (fun _ => 7), none⟩, [98])] rfl
  exact ⟨_, _, rfl, hiff.1, (hiff.2.1.2 (by decide +kernel)).2⟩

/-! ## The items that are not -/

theorem pushAll_ok : ∀ {pushes : List (Alloc × Bytes)} {mem : Mem} {it : Items} {v : List Bytes}, Holds mem it v →
    (∀ q ∈ pushes, (q.1.strs.isSome = true ∧ q.1.items.isSome = true) ∧ q.2.length ≤ kItemSizeMask.toNat) →
    v.length + pushes.length ≤ kItemOffsetMask.toNat → ∃ mem' it', pushAll pushes mem it = some (mem', it')
  | [], mem, it, _, _, _, _ => ⟨mem, it, rfl⟩
  | (a, s) :: pushes, mem, it, v, h, hq, hcount => by
    rw [List.length_cons] at hcount
    obtain ⟨ha, hs⟩ : (a.strs.isSome = true ∧ a.items.isSome = true) ∧ s.length ≤ kItemSizeMask.toNat :=
      hq (a, s) List.mem_cons_self
    have hsize := h.itemsSize
    obtain ⟨mem₁, it₁, hp⟩ : ∃ mem' it', it.push mem a s = (.ok (), mem', it') := push_ok ha hs (by omega)
    have h₁ := (push_spec h hp).1
    have hlen : (pushed v s (.ok ())).length ≤ v.length + 1 := by
      rw [pushed]
      split
      · exact Nat.le_succ _
      · rw [List.length_append, List.length_singleton]
    obtain ⟨mem', it', hr⟩ := pushAll_ok h₁ (fun q hm => hq q (List.mem_cons_of_mem _ hm)) (by omega)
    exact ⟨mem', it', pushAll_cons.2 ⟨mem₁, it₁, hp, hr⟩⟩

/-- 256 GB of strings, and one more. -/
def overflowing : List (Alloc × Bytes) :=
  List.replicate 8192 (⟨some (fun _ => 0), some (fun _ => 0)⟩, List.replicate 33554431 97) ++
    [(⟨some (fun _ => 0), some (fun _ => 0)⟩, [98])]

theorem strings_replicate_append {k : ℕ} {a : Alloc} {s t : Bytes} (hs : s ≠ []) (ht : t ≠ []) :
    strings (List.replicate k (a, s) ++ [(a, t)]) = List.replicate k s ++ [t] := by
  have hs : (!s.isEmpty) = true := by simpa using hs
  have ht : (!t.isEmpty) = true := by simpa using ht
  rw [strings, List.map_append, List.map_replicate, List.filter_append, List.filter_replicate, if_pos hs,
    List.map_singleton, List.filter_cons, if_pos ht, List.filter_nil]

theorem length_store_replicate (s : Bytes) : ∀ k : ℕ, (store (List.replicate k s)).length = k * roundUp 16 s.length
  | 0 => (Nat.zero_mul _).symm
  | k + 1 => by
    rw [List.replicate_succ', length_store_concat, length_store_replicate s k, Nat.succ_mul]

theorem take_one_store (c : UInt8) (s : Bytes) (v : List Bytes) : (store ((c :: s) :: v)).take 1 = [c] := rfl

theorem overflowing_ok : ∃ mem it, pushAll overflowing .empty {} = some (mem, it) := by
  refine pushAll_ok (holds_nil _) (fun q hq => ?_) ?_
  · rcases List.mem_append.1 hq with hq | hq
    · rw [List.eq_of_mem_replicate hq]
      refine ⟨⟨rfl, rfl⟩, ?_⟩
      rw [List.length_replicate]
      exact Nat.le_refl _
    · rw [List.mem_singleton.1 hq]
      exact ⟨⟨rfl, rfl⟩, by decide⟩
  · rw [overflowing, List.length_append, List.length_replicate]
    decide

/-- After 8192 strings of 2^25 - 1 bytes the offset is 2^38. -/
theorem offset_overflowing {s t : Bytes} (hs : s.length = 33554431) :
    offset (List.replicate 8192 s ++ [t]) 8192 = 2 ^ 38 := by
  have htake : (List.replicate 8192 s ++ [t]).take 8192 = List.replicate 8192 s :=
    List.take_left' List.length_replicate
  rw [offset, htake, length_store_replicate, hs]
  rfl

/-- **The last string is read as the first byte of the first one**: its offset 2^38 is cut to 0, and the bit cut off is
already set in its size. -/
theorem not_readBack : ∃ mem it, pushAll overflowing .empty {} = some (mem, it) ∧ it.at mem 8192 = [97] ∧
    (strings overflowing)[8192]? = some [98] ∧ ¬ ReadBack mem it (strings overflowing) := by
  obtain ⟨mem, it, hpush⟩ := overflowing_ok
  have h := holds_pushAll (holds_nil _) hpush
  have hstrings : strings overflowing = List.replicate 8192 (List.replicate 33554431 97) ++ [[98]] :=
    strings_replicate_append (by rw [Ne, List.replicate_eq_nil_iff]; omega) (List.cons_ne_nil _ _)
  rw [List.nil_append, hstrings] at h
  have hbig : (List.replicate 33554431 (97 : UInt8)).length = 33554431 := List.length_replicate
  have hcons : List.replicate 33554431 (97 : UInt8) = 97 :: List.replicate 33554430 97 := List.replicate_succ
  generalize List.replicate 33554431 (97 : UInt8) = big at hstrings h hbig hcons
  have hlen : (List.replicate 8192 big).length = 8192 := List.length_replicate
  have hi : 8192 < (List.replicate 8192 big ++ [[98]]).length := by
    rw [List.length_append, hlen, List.length_singleton]
    omega
  have hget : (List.replicate 8192 big ++ [[98]])[8192] = [98] := by
    rw [List.getElem_append_right (by rw [hlen])]
    simp only [hlen, Nat.sub_self, List.getElem_cons_zero]
  have ho := offset_overflowing (t := [98]) hbig
  have hat : it.at mem 8192 = [97] := by
    rw [Items.at, h.entry_eq hi, hget, ho, itemOffset_pack (by omega) (by decide), itemSize_pack (by omega) (by decide)]
    have htotal := offset_add_le hi
    rw [ho] at htotal
    have hread := Heap.read_drop_take (o := 0) (k := 1) h.strs (by omega)
    rw [List.drop_zero, show List.replicate 8192 big = big :: List.replicate 8191 big from List.replicate_succ,
      List.cons_append, hcons, take_one_store] at hread
    exact hread
  refine ⟨mem, it, hpush, hat, ?_, fun hr => ?_⟩
  · rw [hstrings, List.getElem?_eq_getElem hi, hget]
  · rw [hstrings] at hr
    have hback := hr 8192 hi
    rw [hat, hget] at hback
    exact absurd hback (by decide)

end Fzx
