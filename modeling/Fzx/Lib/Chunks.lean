import Mathlib
/-!
# Chunks — work split by a shared counter

The numbers below `n` are handed out in chunks of `K` by a counter that each taker advances; `ts` lists the takers in the
order of the takes, and `claimed K n ts S` is what the takers in `S` got.  Once the counter has passed `n` the takers got
every number below `n` once (`claimed_all`).
-/
namespace Lib

/-- The `c`-th chunk. -/
def chunk (K n c : ℕ) : List ℕ := List.range' (min (K * c) n) (min (min (K * c) n + K) n - min (K * c) n)

def claimed {α : Type} [DecidableEq α] (K n : ℕ) (ts : List α) (S : Finset α) : List ℕ :=
  ts.zipIdx.flatMap (fun p => if p.1 ∈ S then chunk K n p.2 else [])

theorem chunk_eq_nil {K n c : ℕ} (h : n ≤ K * c) : chunk K n c = [] := by
  unfold chunk
  rw [Nat.min_eq_right h, Nat.min_eq_right (Nat.le_add_right n K), Nat.sub_self, List.range'_zero]

variable {α : Type} [DecidableEq α] {K n : ℕ} {ts : List α} {S T : Finset α}

theorem claimed_snoc (K n : ℕ) (ts : List α) (t : α) (S : Finset α) :
    claimed K n (ts ++ [t]) S = claimed K n ts S ++ (if t ∈ S then chunk K n ts.length else []) := by
  unfold claimed
  rw [List.zipIdx_append, List.flatMap_append]
  simp

theorem claimed_snoc_of_notMem {t : α} (h : t ∉ S) : claimed K n (ts ++ [t]) S = claimed K n ts S := by
  rw [claimed_snoc, if_neg h, List.append_nil]

/-- **A take after the last chunk gets nothing.** -/
theorem claimed_snoc_of_le (h : n ≤ K * ts.length) (t : α) : claimed K n (ts ++ [t]) S = claimed K n ts S := by
  rw [claimed_snoc, chunk_eq_nil h, ite_self, List.append_nil]

theorem claimed_congr (h : ∀ t ∈ ts, t ∈ S ↔ t ∈ T) : claimed K n ts S = claimed K n ts T := by
  induction ts using List.reverseRecOn with
  | nil => rfl
  | append_singleton ts t ih =>
    rw [claimed_snoc, claimed_snoc, ih (fun u hu => h u (List.mem_append_left _ hu))]
    simp only [h t (List.mem_append_right _ (List.mem_singleton_self t))]

theorem claimed_empty (K n : ℕ) (ts : List α) : claimed K n ts (∅ : Finset α) = [] := by
  unfold claimed
  simp

theorem claimed_eq_nil (h : ∀ t ∈ ts, t ∉ S) : claimed K n ts S = [] := by
  rw [claimed_congr (T := ∅) (fun t ht => iff_of_false (h t ht) (Finset.notMem_empty t)), claimed_empty]

/-- **Disjoint takers got disjoint shares of the whole.** -/
theorem claimed_union_perm (h : Disjoint S T) :
    (claimed K n ts (S ∪ T)).Perm (claimed K n ts S ++ claimed K n ts T) := by
  induction ts using List.reverseRecOn with
  | nil => exact List.Perm.nil
  | append_singleton ts t ih =>
    rw [claimed_snoc, claimed_snoc, claimed_snoc]
    by_cases hS : t ∈ S
    · have hT : t ∉ T := Finset.disjoint_left.1 h hS
      rw [if_pos hS, if_neg hT, if_pos (Finset.mem_union_left T hS), List.append_nil]
      have hcomm : (claimed K n ts T ++ chunk K n ts.length).Perm (chunk K n ts.length ++ claimed K n ts T) :=
        List.perm_append_comm
      refine (ih.append_right _).trans ?_
      rw [List.append_assoc, List.append_assoc]
      exact hcomm.append_left _
    · rw [if_neg hS, List.append_nil, ← List.append_assoc]
      refine ih.append ?_
      by_cases hT : t ∈ T
      · rw [if_pos hT, if_pos (Finset.mem_union_right S hT)]
      · rw [if_neg hT, if_neg (fun hu => (Finset.mem_union.1 hu).elim hS hT)]

theorem claimed_range (h : ∀ t ∈ ts, t ∈ S) : claimed K n ts S = List.range (min (K * ts.length) n) := by
  induction ts using List.reverseRecOn with
  | nil =>
    rw [List.length_nil, Nat.mul_zero, Nat.zero_min]
    rfl
  | append_singleton ts t ih =>
    rw [claimed_snoc, ih (fun u hu => h u (List.mem_append_left _ hu)),
      if_pos (h t (List.mem_append_right _ (List.mem_singleton_self t))), List.length_append, List.length_singleton,
      Nat.mul_add, Nat.mul_one]
    have hle : min (K * ts.length) n ≤ min (K * ts.length + K) n := min_le_min_right n (Nat.le_add_right _ _)
    have hmin : min (min (K * ts.length) n + K) n = min (K * ts.length + K) n := by omega
    unfold chunk
    rw [hmin, List.range_eq_range', List.range_eq_range']
    generalize min (K * ts.length) n = a at hle
    generalize min (K * ts.length + K) n = b at hle
    obtain ⟨d, rfl⟩ := Nat.exists_eq_add_of_le hle
    rw [Nat.add_sub_cancel_left, ← List.range'_append_1, Nat.zero_add]

/-- **The takers of every chunk got every number once.** -/
theorem claimed_all (h : ∀ t ∈ ts, t ∈ S) (hn : n ≤ K * ts.length) : claimed K n ts S = List.range n := by
  rw [claimed_range h, Nat.min_eq_right hn]

end Lib
