import Fzx.Pool
/-!
# PoolRows — the items a query matches

`Rows b items q is l` says that `l` holds, in some order, the matched items among those with the indices `is`, each once
for each time its index is in `is`.  The loop over a chunk, the sort and the merge are steps of it, and sorted rows of
distinct indices are in the strict order of `operator<` (`Rows.strict`).
-/
namespace Fzx

open Lib

/-- The item of an index, if it is matched. -/
def matchedItem (b : Build) (items : List Bytes) (q : Query) (i : ℕ) : Option MatchedItem :=
  let item := items.getD i []
  if q.match b item then MatchedItem.new (UInt32.ofNat i) (q.score b item) else none

structure Rows (b : Build) (items : List Bytes) (q : Query) (is : List ℕ) (l : List MatchedItem) : Prop where
  defined : ∀ i ∈ is, q.match b (items.getD i []) = true → (matchedItem b items q i).isSome = true
  perm : l.Perm (is.filterMap (matchedItem b items q))

section

variable {b : Build} {items : List Bytes} {q : Query} {is js : List ℕ} {l m : List MatchedItem}

theorem Rows.nil : Rows b items q [] [] := ⟨fun _ hi => absurd hi List.not_mem_nil, List.Perm.nil⟩

theorem Rows.append (h : Rows b items q is l) (h' : Rows b items q js m) : Rows b items q (is ++ js) (l ++ m) where
  defined := fun i hi => (List.mem_append.1 hi).elim (h.defined i) (h'.defined i)
  perm := by
    rw [List.filterMap_append]
    exact h.perm.append h'.perm

theorem Rows.perm_left (h : Rows b items q is l) (hp : is.Perm js) : Rows b items q js l where
  defined := fun i hi => h.defined i (hp.mem_iff.2 hi)
  perm := h.perm.trans (hp.filterMap _)

theorem Rows.perm_right (h : Rows b items q is l) (hp : m.Perm l) : Rows b items q is m where
  defined := h.defined
  perm := hp.trans h.perm

/-! ## The loop over a chunk -/

theorem matchItem_eq_some {out out' : List MatchedItem} {i : ℕ} (h : matchItem b items q out i = some out') :
    (q.match b (items.getD i []) = true → (matchedItem b items q i).isSome = true) ∧
      out' = out ++ [i].filterMap (matchedItem b items q) := by
  unfold matchItem at h
  by_cases hm : q.match b (items.getD i []) = true
  · simp only [hm, if_true] at h
    obtain ⟨x, hx, rfl⟩ := Option.map_eq_some_iff.1 h
    have hf : matchedItem b items q i = some x := by
      unfold matchedItem
      rw [if_pos hm, hx]
    refine ⟨fun _ => by rw [hf]; rfl, ?_⟩
    rw [List.filterMap_cons_some hf, List.filterMap_nil]
  · have hf : matchedItem b items q i = none := by
      unfold matchedItem
      rw [if_neg hm]
    rw [if_neg hm] at h
    refine ⟨fun h => absurd h hm, ?_⟩
    rw [List.filterMap_cons_none hf, List.filterMap_nil, List.append_nil, Option.some.inj h]

theorem matchItems_rows : ∀ {is : List ℕ} {out out' : List MatchedItem}, matchItems b items q is out = some out' →
    ∃ l, Rows b items q is l ∧ out' = out ++ l
  | [], out, out', h => by
    cases h
    exact ⟨[], Rows.nil, (List.append_nil out).symm⟩
  | i :: is, out, out', h => by
    unfold matchItems at h
    rw [List.foldlM_cons] at h
    obtain ⟨mid, hmid, h⟩ := Option.bind_eq_some_iff.1 h
    obtain ⟨hd, rfl⟩ := matchItem_eq_some hmid
    obtain ⟨l, hl, rfl⟩ := matchItems_rows h
    have hi : Rows b items q [i] ([i].filterMap (matchedItem b items q)) := by
      refine ⟨fun j hj => ?_, List.Perm.refl _⟩
      rw [List.mem_singleton.1 hj]
      exact hd
    exact ⟨_, hi.append hl, List.append_assoc _ _ _⟩

/-- **A chunk adds its rows.** -/
theorem Rows.matchItems {out : List MatchedItem} (h : Rows b items q is l) (hm : matchItems b items q js l = some out) :
    Rows b items q (is ++ js) out := by
  obtain ⟨m, hr, rfl⟩ := matchItems_rows hm
  exact h.append hr

/-! ## The order -/

theorem sortItems_perm (l : List MatchedItem) : (sortItems l).Perm l := List.perm_insertionSort _ l

theorem sortItems_sorted (l : List MatchedItem) : Sorted (sortItems l) := List.pairwise_insertionSort _ l

theorem match_of_matchedItem {i : ℕ} {x : MatchedItem} (h : matchedItem b items q i = some x) :
    q.match b (items.getD i []) = true := by
  unfold matchedItem at h
  simp only at h
  split at h
  · rename_i hm
    exact hm
  · cases h

theorem matchedItem_injective {i j : ℕ} {x : MatchedItem} (hi : i < 2 ^ 32) (hj : j < 2 ^ 32)
    (hx : matchedItem b items q i = some x) (hy : matchedItem b items q j = some x) : i = j := by
  unfold matchedItem at hx hy
  simp only at hx hy
  split at hx
  · split at hy
    · have hlt : ¬ x < x := by
        rw [MatchedItem.lt_iff_toInt]
        exact lt_irrefl _
      rw [MatchedItem.lt_iff hx hy] at hlt
      have hlt' : ¬ x < x := by
        rw [MatchedItem.lt_iff_toInt]
        exact lt_irrefl _
      rw [MatchedItem.lt_iff hy hx] at hlt'
      push Not at hlt hlt'
      have hr := le_antisymm hlt'.1 hlt.1
      have hle := hlt.2 hr
      have hle' := hlt'.2 hr.symm
      have he : UInt32.ofNat i = UInt32.ofNat j := UInt32.le_antisymm (UInt32.not_lt.1 hle') (UInt32.not_lt.1 hle)
      have hn := congrArg UInt32.toNat he
      rwa [UInt32.toNat_ofNat_of_lt' (by simpa using hi), UInt32.toNat_ofNat_of_lt' (by simpa using hj)] at hn
    · cases hy
  · cases hx

/-- **Sorted rows of the indices below `n` are strictly sorted**, if the indices of the matches fit. -/
theorem Rows.strict {n : ℕ} (h : Rows b items q (List.range n) l) (hs : Sorted l)
    (hn : ∀ i < n, q.match b (items.getD i []) = true → i < 2 ^ 32) : l.Pairwise (· < ·) := by
  have hnodup : l.Nodup := by
    rw [h.perm.nodup_iff, List.Nodup, List.pairwise_filterMap]
    refine List.Pairwise.imp_of_mem ?_ (List.pairwise_lt_range (n := n))
    intro i j hi hj hlt x hx y hy he
    subst he
    rw [List.mem_range] at hi hj
    exact hlt.ne (matchedItem_injective (hn i hi (match_of_matchedItem hx)) (hn j hj (match_of_matchedItem hy)) hx hy)
  refine (hs.and hnodup).imp (fun {x y} hxy => ?_)
  have hle := hxy.1
  have hne : x.mValue.toInt ≠ y.mValue.toInt := fun he =>
    hxy.2 (congrArg MatchedItem.mk (BitVec.toInt_inj.1 he))
  rw [MatchedItem.lt_iff_toInt] at hle ⊢
  omega

end

end Fzx
