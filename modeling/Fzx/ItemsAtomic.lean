import Fzx.ItemsCopies
/-!
# ItemsAtomic — a push that throws leaves no trace

`allocItem` may replace the string array and then throw, with the new array and its capacity already in place.  What an
instance shows (`Items.view`) is a function of the strings it holds (`Holds.view_eq`), also where an offset exceeds its 38
bits, and these a push that throws does not touch; nor do later pushes depend on the capacities beyond whether they need
memory (`push_throws_atomic`).
-/
namespace Fzx

open Lib

/-- What an instance shows. -/
structure View where
  size : ℕ
  maxStrSize : ℕ
  strings : List Bytes

def Items.view (it : Items) (mem : Mem) : View :=
  { size := it.size, maxStrSize := it.maxStrSize, strings := (List.range it.size).map (it.at mem) }

/-! ## What is shown depends on the strings alone -/

theorem itemSize_lt (item : Offset) : itemSize item < 2 ^ 25 := by
  rw [itemSize, BitVec.toNat_and]
  exact Nat.lt_of_le_of_lt Nat.and_le_right (by decide)

/-- The cut offset and the size read with it stay inside the string array, whatever the entry came to. -/
theorem Holds.cut_le {mem : Mem} {it : Items} {v : List Bytes} (h : Holds mem it v) {i : ℕ} (hi : i < v.length) :
    offset v i % 2 ^ 38 + itemSize (pack (offset v i) v[i].length) ≤ (store v).length := by
  have hle := offset_add_le hi
  have hround := le_roundUp (N := 16) (by decide) v[i].length
  rcases Nat.lt_or_ge (offset v i) (2 ^ 38) with ho | ho
  · rw [Nat.mod_eq_of_lt ho, itemSize_pack_of_lt ho (h.size_lt hi)]
    omega
  · have hsize := itemSize_lt (pack (offset v i) v[i].length)
    omega

/-- **An item as it is read back**, the offset cut to 38 bits. -/
theorem Holds.at_eq_store {mem : Mem} {it : Items} {v : List Bytes} (h : Holds mem it v) {i : ℕ} (hi : i < v.length) :
    it.at mem i = ((store v).drop (offset v i % 2 ^ 38)).take (itemSize (pack (offset v i) v[i].length)) := by
  rw [Items.at, h.entry_eq hi, itemOffset_pack (h.offset_lt hi) (h.size_lt hi)]
  exact Heap.read_drop_take h.strs (h.cut_le hi)

/-- **Instances that hold the same strings show the same**, each in its memory. -/
theorem Holds.view_eq {mem mem' : Mem} {it it' : Items} {v : List Bytes} (h : Holds mem it v) (h' : Holds mem' it' v) :
    it.view mem = it'.view mem' := by
  have hsize : it.size = v.length := h.itemsSize
  have hsize' : it'.size = v.length := h'.itemsSize
  have hmax : it.maxStrSize = it'.maxStrSize := h.maxStrSize.trans h'.maxStrSize.symm
  have hstrings : (List.range v.length).map (it.at mem) = (List.range v.length).map (it'.at mem') := by
    refine List.map_congr_left (fun i hi => ?_)
    rw [h.at_eq_store (List.mem_range.1 hi), h'.at_eq_store (List.mem_range.1 hi)]
  rw [Items.view, Items.view, hsize, hsize', hmax, hstrings]

/-- What a push that succeeds has checked. -/
theorem Holds.checks_of_push {mem : Mem} {it : Items} {v : List Bytes} {a : Alloc} {s : Bytes} (h : Holds mem it v)
    (hne : s ≠ []) (hok : (it.push mem a s).1 = .ok ()) :
    s.length ≤ kItemSizeMask.toNat ∧ v.length + 1 ≤ kItemOffsetMask.toNat := by
  rcases allocItem_cases h a (List.length_pos_iff.2 hne) with ⟨e, mem', it', he, -⟩ | ⟨_, _, _, _, hbytes, hcount, -⟩
  · rw [Items.push, if_neg (by simpa using hne), he] at hok
    cases hok
  · exact ⟨hbytes, hcount⟩

/-- **With memory available a push succeeds wherever it does for the same strings.** -/
theorem Holds.push_ok_of {mem mem' : Mem} {it it' : Items} {v : List Bytes} {a a' : Alloc} {s : Bytes} (h : Holds mem it v)
    (h' : Holds mem' it' v) (ha : a'.strs.isSome = true ∧ a'.items.isSome = true) (hok : (it.push mem a s).1 = .ok ()) :
    (it'.push mem' a' s).1 = .ok () := by
  by_cases hne : s = []
  · rw [hne]
    rfl
  · obtain ⟨hbytes, hcount⟩ := h.checks_of_push hne hok
    obtain ⟨_, _, hp⟩ := push_ok ha hbytes (h'.itemsSize.symm ▸ hcount)
    rw [hp]

namespace Copies

def view (w : Copies) (c : ℕ) : View := (w.instances c).view w.mem

/-! ## The same calls in two stores -/

/-- The same call in two stores, each with memory of its own, with the same result. -/
inductive Both : Copies × Copies → Copies × Copies → Prop
  | push {w w' : Copies} (i : ℕ) (a a' : Alloc) (s : Bytes) (hup : w.values i = w.history)
      (h : ((w.instances i).push w.mem a s).1 = ((w'.instances i).push w'.mem a' s).1) :
      Both (w, w') (w.push i a s, w'.push i a' s)
  | copy {w w' u u' : Copies} (src dst : ℕ) (h : step w (.copy src dst) = some u)
      (h' : step w' (.copy src dst) = some u') : Both (w, w') (u, u')

/-- Both stores are well-formed and hold the same strings. -/
structure Alike (p : Copies × Copies) : Prop where
  left : Inv p.1
  right : Inv p.2
  values : p.1.values = p.2.values
  history : p.1.history = p.2.history

theorem Alike.view {p : Copies × Copies} (h : Alike p) (c : ℕ) : p.1.view c = p.2.view c := by
  have hholds := h.right.holds c
  rw [← h.values] at hholds
  exact (h.left.holds c).view_eq hholds

/-- A push that throws touches neither the values nor the history. -/
theorem values_push_error {w : Copies} {i : ℕ} {a : Alloc} {s : Bytes} {e : Exn}
    (h : ((w.instances i).push w.mem a s).1 = .error e) :
    (w.push i a s).values = w.values ∧ (w.push i a s).history = w.history := by
  rw [push, h]
  exact ⟨Function.update_eq_self i w.values, rfl⟩

theorem Alike.push {w w' : Copies} {i : ℕ} {a a' : Alloc} {s : Bytes} (h : Alike (w, w')) (hup : w.values i = w.history)
    (hr : ((w.instances i).push w.mem a s).1 = ((w'.instances i).push w'.mem a' s).1) :
    Alike (w.push i a s, w'.push i a' s) where
  left := inv_push h.left hup a s
  right := by
    have hi : w.values i = w'.values i := congrFun h.values i
    exact inv_push h.right (hi.symm.trans (hup.trans h.history)) a' s
  values := by
    have hv : w.values = w'.values := h.values
    dsimp only [Copies.push]
    rw [hr, hv]
  history := by
    have hh : w.history = w'.history := h.history
    dsimp only [Copies.push]
    rw [hr, hh]

/-- **The same call keeps two stores alike.** -/
theorem Alike.step {p q : Copies × Copies} (h : Alike p) (hs : Both p q) : Alike q := by
  cases hs with
  | push i a a' s hup hr => exact h.push hup hr
  | @copy w w' u u' src dst hu hu' =>
    have hv : w.values = w'.values := h.values
    have hleft : Inv u := inv_step (a := .copy src dst) h.left trivial hu
    have hright : Inv u' := inv_step (a := .copy src dst) h.right trivial hu'
    refine ⟨hleft, hright, ?_, ?_⟩
    · cases hu
      cases hu'
      dsimp only
      rw [hv]
    · cases hu
      cases hu'
      exact h.history

theorem Alike.run {p q : Copies × Copies} (h : Alike p) (hr : Relation.ReflTransGen Both p q) : Alike q := by
  induction hr with
  | refl => exact h
  | tail _ hs ih => exact ih.step hs

/-- **A push that throws is atomic**, at whichever point it does, after any pushes and copies: every instance shows what it
did, the others keep their handles, and whatever calls follow leave what they leave without it.  A later push that
succeeds does so without it too, given memory. -/
theorem push_throws_atomic (mem : Mem) (actions : List Action) (hup : Meets Copies.step UpToDate (init mem) actions)
    (w : Copies) (hrun : Lib.run Copies.step (init mem) actions = some w) (i : ℕ) (a : Alloc) (s : Bytes) (e : Exn)
    (hi : w.values i = w.history) (he : ((w.instances i).push w.mem a s).1 = .error e) :
    (∀ c, (w.push i a s).view c = w.view c) ∧ (∀ c, c ≠ i → (w.push i a s).instances c = w.instances c) ∧
      ∀ u u', Relation.ReflTransGen Both (w.push i a s, w) (u, u') → (∀ c, u.view c = u'.view c) ∧
        ∀ (c : ℕ) (a a' : Alloc) (s : Bytes), u.values c = u.history → ((u.instances c).push u.mem a s).1 = .ok () →
          a'.strs.isSome = true ∧ a'.items.isSome = true →
          ((u'.instances c).push u'.mem a' s).1 = .ok () ∧ ∀ d, (u.push c a s).view d = (u'.push c a' s).view d := by
  have hinv := inv_run hup hrun
  obtain ⟨hvalues, hhistory⟩ := values_push_error he
  have halike : Alike (w.push i a s, w) := ⟨inv_push hinv hi a s, hinv, hvalues, hhistory⟩
  refine ⟨halike.view, fun c hc => Function.update_of_ne hc _ _, fun u u' hr => ?_⟩
  have halike := halike.run hr
  refine ⟨halike.view, fun c a a' s hc hok ha => ?_⟩
  have hholds := halike.right.holds c
  rw [← halike.values] at hholds
  have hok' := (halike.left.holds c).push_ok_of hholds ha hok
  exact ⟨hok', (halike.push hc (hok.trans hok'.symm)).view⟩

/-- With no items yet the string array has been replaced when the item array cannot be had.  With a string and a copy of it
there is no memory for the copy's push: the string is still there for both, and the push that is tried again does what it
does at once. -/
theorem push_throws_atomic_items :
    (∀ c, ((init .empty).push 0 ⟨some (fun _ => 7), none⟩ [97, 98]).view c = (init .empty).view c) ∧
    ∃ w, Lib.run Copies.step (init .empty) [.push 0 ⟨some (fun _ => 7), some (fun _ => 9)⟩ [97, 98], .copy 0 1] = some w ∧
      ((w.instances 1).push w.mem ⟨none, none⟩ [99]).1 = .error .badAlloc ∧
      (∀ c, (w.push 1 ⟨none, none⟩ [99]).view c = w.view c) ∧
      ∀ c, ((w.push 1 ⟨none, none⟩ [99]).push 1 ⟨some (fun _ => 7), some (fun _ => 9)⟩ [99]).view c =
        (w.push 1 ⟨some (fun _ => 7), some (fun _ => 9)⟩ [99]).view c := by
  refine ⟨(push_throws_atomic .empty [] trivial (init .empty) rfl 0 ⟨some (fun _ => 7), none⟩ [97, 98] .badAlloc rfl
    (by decide +kernel)).1, ?_⟩
  have hthrows := push_throws_atomic .empty [.push 0 ⟨some (fun _ => 7), some (fun _ => 9)⟩ [97, 98], .copy 0 1]
    (by decide +kernel) _ rfl 1 ⟨none, none⟩ [99] .badAlloc rfl (by decide +kernel)
  refine ⟨_, rfl, by decide +kernel, hthrows.1, ?_⟩
  exact ((hthrows.2.2 _ _ .refl).2 1 ⟨some (fun _ => 7), some (fun _ => 9)⟩ ⟨some (fun _ => 7), some (fun _ => 9)⟩ [99] rfl
    (by decide +kernel) ⟨rfl, rfl⟩).2

end Copies
end Fzx
