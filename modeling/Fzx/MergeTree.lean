import Fzx.MatchedItem
/-!
# MergeTree — the merge tree of worker.cpp

Which worker merges whose results (`kParentMap`, `kMaxChildrenMap`), the bitset of the children merged so far
(`MergeState`) and the merge itself (`merge2`).
-/
namespace Fzx

def kMaxThreads : ℕ := 64

def kParentMap : List ℕ :=
  [0x00, 0x00, 0x00, 0x02, 0x00, 0x04, 0x04, 0x06, 0x00, 0x08, 0x08, 0x0A, 0x08, 0x0C, 0x0C, 0x0E,
   0x00, 0x10, 0x10, 0x12, 0x10, 0x14, 0x14, 0x16, 0x10, 0x18, 0x18, 0x1A, 0x18, 0x1C, 0x1C, 0x1E,
   0x00, 0x20, 0x20, 0x22, 0x20, 0x24, 0x24, 0x26, 0x20, 0x28, 0x28, 0x2A, 0x28, 0x2C, 0x2C, 0x2E,
   0x20, 0x30, 0x30, 0x32, 0x30, 0x34, 0x34, 0x36, 0x30, 0x38, 0x38, 0x3A, 0x38, 0x3C, 0x3C, 0x3E]

def kMaxChildrenMap : List ℕ :=
  [6, 0, 1, 0, 2, 0, 1, 0, 3, 0, 1, 0, 2, 0, 1, 0,
   4, 0, 1, 0, 2, 0, 1, 0, 3, 0, 1, 0, 2, 0, 1, 0,
   5, 0, 1, 0, 2, 0, 1, 0, 3, 0, 1, 0, 2, 0, 1, 0,
   4, 0, 1, 0, 2, 0, 1, 0, 3, 0, 1, 0, 2, 0, 1, 0]

def parent (w : ℕ) : ℕ := kParentMap.getD w 0

def maxChildren (w : ℕ) : ℕ := kMaxChildrenMap.getD w 0

/-! ## The tables -/

theorem maxChildren_le : ∀ w : ℕ, maxChildren w ≤ 6 := by
  intro w
  by_cases hw : w < 64
  · revert w
    decide
  · unfold maxChildren
    rw [List.getD_eq_default _ _ (by simpa [kMaxChildrenMap] using Nat.le_of_not_lt hw)]
    exact Nat.zero_le 6

/-- The two tables describe one tree: the `i`-th child of `w` is `w + 2^i`, with up to `i` children of its own. -/
theorem child_spec : ∀ w < 64, ∀ i < maxChildren w, parent (w + 2 ^ i) = w ∧ maxChildren (w + 2 ^ i) = i := by decide

/-! ## MergeState -/

structure MergeState where
  mIndex : ℕ
  mCount : ℕ
  mMask : BitVec 8
  mState : BitVec 8
deriving DecidableEq, Repr

namespace MergeState

/-- The loop of the constructor, with the rounds it has left. -/
def countChildren (workerIndex workersCount : ℕ) : ℕ → ℕ → ℕ
  | 0, count => count
  | k + 1, count =>
    if workerIndex + 2 ^ count < workersCount then countChildren workerIndex workersCount k (count + 1) else count

def new (workerIndex workersCount : ℕ) : MergeState :=
  let count := countChildren workerIndex workersCount (maxChildren workerIndex) 0
  let mask := ~~~(0xFF#8 <<< count)
  { mIndex := workerIndex, mCount := count, mMask := mask, mState := mask }

def size (m : MergeState) : ℕ := m.mCount

/-- `at`, a keyword here. -/
def child (m : MergeState) (i : ℕ) : ℕ := m.mIndex + 2 ^ i

def reset (m : MergeState) : MergeState := { m with mState := m.mMask }

def set (m : MergeState) (i : ℕ) : MergeState := { m with mState := m.mState &&& ~~~(1#8 <<< i) }

def done (m : MergeState) : Bool := m.mState == 0#8

def contains (m : MergeState) (i : ℕ) : Bool := m.mState &&& (1#8 <<< i) == 0#8

/-! ### The children counted -/

theorem countChildren_spec {w n : ℕ} : ∀ (k c : ℕ), (∀ i < c, w + 2 ^ i < n) →
    (∀ i < countChildren w n k c, w + 2 ^ i < n) ∧ countChildren w n k c ≤ c + k ∧
      (countChildren w n k c < c + k → n ≤ w + 2 ^ countChildren w n k c)
  | 0, c, h => ⟨h, le_rfl, fun hlt => absurd hlt (lt_irrefl _)⟩
  | k + 1, c, h => by
    unfold countChildren
    split
    · rename_i hc
      have hsucc : ∀ i < c + 1, w + 2 ^ i < n := fun i hi =>
        (Nat.lt_succ_iff_lt_or_eq.1 hi).elim (h i) (fun he => he ▸ hc)
      obtain ⟨h1, h2, h3⟩ := countChildren_spec k (c + 1) hsucc
      exact ⟨h1, by omega, fun hlt => h3 (by omega)⟩
    · rename_i hc
      exact ⟨h, by omega, fun _ => Nat.le_of_not_lt hc⟩

/-- The children of worker `w` of `n`: those of the full tree that exist. -/
theorem new_spec (w n : ℕ) : (∀ i < (new w n).size, w + 2 ^ i < n) ∧ (new w n).size ≤ maxChildren w ∧
    ((new w n).size < maxChildren w → n ≤ w + 2 ^ (new w n).size) := by
  have h := countChildren_spec (w := w) (n := n) (maxChildren w) 0 (fun i hi => absurd hi (Nat.not_lt_zero i))
  rwa [Nat.zero_add] at h

/-! ### The bitset -/

/-- A state a worker's constructor, `reset` and `set` lead to. -/
structure WellFormed (w n : ℕ) (m : MergeState) : Prop where
  index : m.mIndex = w
  count : m.mCount = (new w n).size
  mask : m.mMask = (new w n).mMask
  state : ∀ i, m.mCount ≤ i → m.mState.getLsbD i = false

variable {w n : ℕ} {m : MergeState}

theorem contains_iff {i : ℕ} (hi : i < 8) : m.contains i = true ↔ m.mState.getLsbD i = false := by
  unfold contains
  rw [beq_iff_eq, ← BitVec.twoPow_eq, BitVec.and_twoPow]
  split
  · rename_i h
    simp only [h, Bool.true_eq_false, iff_false]
    intro h0
    have h1 := congrArg (fun v : BitVec 8 => v.getLsbD i) h0
    simp [hi] at h1
  · rename_i h
    simpa using h

theorem getLsbD_mMask (w n i : ℕ) : (new w n).mMask.getLsbD i = decide (i < 8 ∧ i < (new w n).size) := by
  change (~~~(0xFF#8 <<< (new w n).size)).getLsbD i = _
  rw [BitVec.getLsbD_not, BitVec.getLsbD_shiftLeft]
  by_cases h8 : i < 8
  · by_cases hc : i < (new w n).size
    · simp [h8, hc]
    · have h1 : (0xFF#8).getLsbD (i - (new w n).size) = true := by
        rw [show (0xFF#8) = BitVec.allOnes 8 by rfl, BitVec.getLsbD_allOnes]
        exact decide_eq_true (by omega)
      simp [h8, hc, h1]
  · simp [h8]

theorem wellFormed_new (w n : ℕ) : WellFormed w n (new w n) where
  index := rfl
  count := rfl
  mask := rfl
  state := by
    intro i hi
    change (new w n).mMask.getLsbD i = false
    rw [getLsbD_mMask, decide_eq_false_iff_not]
    exact fun h => absurd h.2 (Nat.not_lt.2 hi)

theorem WellFormed.reset (h : WellFormed w n m) : WellFormed w n m.reset where
  index := h.index
  count := h.count
  mask := h.mask
  state := by
    intro i hi
    change m.mMask.getLsbD i = false
    rw [h.mask, getLsbD_mMask, decide_eq_false_iff_not]
    rw [show m.reset.mCount = m.mCount from rfl, h.count] at hi
    exact fun h => absurd h.2 (Nat.not_lt.2 hi)

theorem WellFormed.set (h : WellFormed w n m) (i : ℕ) : WellFormed w n (m.set i) where
  index := h.index
  count := h.count
  mask := h.mask
  state := by
    intro j hj
    change (m.mState &&& ~~~(1#8 <<< i)).getLsbD j = false
    rw [BitVec.getLsbD_and, h.state j hj, Bool.false_and]

theorem WellFormed.size_eq (h : WellFormed w n m) : m.size = (new w n).size := h.count

theorem WellFormed.size_le (h : WellFormed w n m) : m.size ≤ 6 := by
  rw [h.size_eq]
  exact (new_spec w n).2.1.trans (maxChildren_le w)

theorem WellFormed.child_eq (h : WellFormed w n m) (i : ℕ) : m.child i = w + 2 ^ i := by
  unfold child
  rw [h.index]

theorem WellFormed.child_lt (h : WellFormed w n m) {i : ℕ} (hi : i < m.size) : m.child i < n := by
  rw [h.child_eq]
  exact (new_spec w n).1 i (h.size_eq ▸ hi)

theorem WellFormed.parent_child (h : WellFormed w n m) (hw : w < 64) {i : ℕ} (hi : i < m.size) :
    parent (m.child i) = w := by
  rw [h.child_eq]
  exact (child_spec w hw i (lt_of_lt_of_le (h.size_eq ▸ hi) (new_spec w n).2.1)).1

theorem WellFormed.done_iff (h : WellFormed w n m) : m.done = true ↔ ∀ i < m.size, m.contains i = true := by
  have h6 := h.size_le
  unfold done
  rw [beq_iff_eq]
  constructor
  · intro h0 i hi
    rw [contains_iff (by omega), h0, BitVec.getLsbD_zero]
  · intro hc
    apply BitVec.eq_of_getLsbD_eq
    intro i hi
    rw [BitVec.getLsbD_zero]
    by_cases hlt : i < m.size
    · exact (contains_iff hi).1 (hc i hlt)
    · exact h.state i (Nat.le_of_not_lt hlt)

theorem WellFormed.not_contains_reset (h : WellFormed w n m) {i : ℕ} (hi : i < m.size) : m.reset.contains i = false := by
  have h6 := h.size_le
  have h1 : m.reset.mState.getLsbD i = true := by
    change m.mMask.getLsbD i = true
    rw [h.mask, getLsbD_mMask, decide_eq_true_iff]
    exact ⟨by omega, h.size_eq ▸ hi⟩
  rw [Bool.eq_false_iff, Ne, contains_iff (by omega), h1]
  exact Bool.noConfusion

theorem contains_set {i j : ℕ} (hj : j < 8) : (m.set i).contains j = (m.contains j || decide (j = i)) := by
  rw [Bool.eq_iff_iff, contains_iff hj, Bool.or_eq_true, contains_iff hj, decide_eq_true_iff]
  change (m.mState &&& ~~~(1#8 <<< i)).getLsbD j = false ↔ _
  rw [BitVec.getLsbD_and, BitVec.getLsbD_not, ← BitVec.twoPow_eq, BitVec.getLsbD_twoPow]
  by_cases he : i = j
  · simp [he, hj]
  · simp [he, Ne.symm he, hj]

/-! ### The workers merged -/

/-- A worker and the subtrees of its children that are merged. -/
def mergedSet (m : MergeState) (w : ℕ) : Finset ℕ :=
  insert w (((Finset.range m.size).filter (fun i => m.contains i = true)).biUnion
    (fun i => Finset.Ico (w + 2 ^ i) (w + 2 ^ i + 2 ^ i)))

theorem mem_mergedSet {t : ℕ} : t ∈ m.mergedSet w ↔
    t = w ∨ ∃ i < m.size, m.contains i = true ∧ w + 2 ^ i ≤ t ∧ t < w + 2 ^ i + 2 ^ i := by
  unfold mergedSet
  simp only [Finset.mem_insert, Finset.mem_biUnion, Finset.mem_filter, Finset.mem_range, Finset.mem_Ico, and_assoc]

theorem mergedSet_eq_singleton (h : ∀ i < m.size, m.contains i = false) : m.mergedSet w = {w} := by
  ext t
  rw [mem_mergedSet, Finset.mem_singleton]
  refine ⟨fun ht => ht.elim id (fun ⟨i, hi, hc, _⟩ => ?_), Or.inl⟩
  rw [h i hi] at hc
  cases hc

theorem mergedSet_set {i : ℕ} (hi : i < m.size) (h8 : m.size ≤ 8) :
    (m.set i).mergedSet w = m.mergedSet w ∪ Finset.Ico (w + 2 ^ i) (w + 2 ^ i + 2 ^ i) := by
  ext t
  rw [Finset.mem_union, mem_mergedSet, mem_mergedSet, Finset.mem_Ico, or_assoc]
  refine or_congr Iff.rfl ⟨?_, ?_⟩
  · rintro ⟨j, hj, hc, ht⟩
    rw [contains_set (Nat.lt_of_lt_of_le hj h8), Bool.or_eq_true, decide_eq_true_iff] at hc
    rcases hc with hc | rfl
    · exact .inl ⟨j, hj, hc, ht⟩
    · exact .inr ht
  · rintro (⟨j, hj, hc, ht⟩ | ht)
    · refine ⟨j, hj, ?_, ht⟩
      rw [contains_set (Nat.lt_of_lt_of_le hj h8), hc, Bool.true_or]
    · refine ⟨i, hi, ?_, ht⟩
      rw [contains_set (Nat.lt_of_lt_of_le hi h8), decide_eq_true rfl, Bool.or_true]

/-- The children's subtrees are disjoint. -/
theorem disjoint_mergedSet {i : ℕ} (hc : m.contains i = false) :
    Disjoint (m.mergedSet w) (Finset.Ico (w + 2 ^ i) (w + 2 ^ i + 2 ^ i)) := by
  rw [Finset.disjoint_left]
  intro t ht hi
  rw [Finset.mem_Ico] at hi
  have hpos := Nat.two_pow_pos i
  rcases mem_mergedSet.1 ht with rfl | ⟨j, _, hcj, hj⟩
  · omega
  · rcases Nat.lt_trichotomy i j with hlt | rfl | hlt
    · have hle := Nat.pow_le_pow_right (n := 2) (by decide) (Nat.succ_le_of_lt hlt)
      rw [Nat.pow_succ] at hle
      omega
    · rw [hc] at hcj
      cases hcj
    · have hle := Nat.pow_le_pow_right (n := 2) (by decide) (Nat.succ_le_of_lt hlt)
      rw [Nat.pow_succ] at hle
      omega

/-- The workers whose results a worker merges into its own. -/
def subtree (w : ℕ) : Finset ℕ := Finset.Ico w (w + 2 ^ maxChildren w)

/-- **A worker that has merged all its children has merged its subtree.** -/
theorem WellFormed.mem_mergedSet_iff_of_done (h : WellFormed w n m) (hd : m.done = true) {t : ℕ} (ht : t < n) :
    t ∈ m.mergedSet w ↔ t ∈ subtree w := by
  obtain ⟨_, hmax, hend⟩ := new_spec w n
  rw [← h.size_eq] at hmax hend
  have hpos := Nat.two_pow_pos (maxChildren w)
  unfold subtree
  rw [mem_mergedSet, Finset.mem_Ico]
  constructor
  · rintro (rfl | ⟨i, hi, _, hlo, hhi⟩)
    · omega
    · have hle := Nat.pow_le_pow_right (n := 2) (by decide) (Nat.succ_le_of_lt (hi.trans_le hmax))
      rw [Nat.pow_succ] at hle
      omega
  · rintro ⟨hlo, hhi⟩
    by_cases he : t = w
    · exact .inl he
    · right
      have hne : t - w ≠ 0 := by omega
      have h1 := Nat.pow_log_le_self 2 hne
      have h2 := Nat.lt_pow_succ_log_self (b := 2) (by decide) (t - w)
      rw [Nat.pow_succ] at h2
      have hlog : Nat.log 2 (t - w) < maxChildren w := Nat.log_lt_of_lt_pow hne (by omega)
      have hsize : Nat.log 2 (t - w) < m.size := by
        by_contra hge
        have hle := Nat.pow_le_pow_right (n := 2) (by decide) (Nat.le_of_not_lt hge)
        have := hend (by omega)
        omega
      exact ⟨Nat.log 2 (t - w), hsize, h.done_iff.1 hd _ hsize, by omega, by omega⟩

theorem WellFormed.subtree_child (h : WellFormed w n m) (hw : w < 64) {i : ℕ} (hi : i < m.size) :
    subtree (w + 2 ^ i) = Finset.Ico (w + 2 ^ i) (w + 2 ^ i + 2 ^ i) := by
  unfold subtree
  rw [(child_spec w hw i (lt_of_lt_of_le (h.size_eq ▸ hi) (new_spec w n).2.1)).2]

end MergeState

/-! ## merge2 -/

namespace MatchedItem

theorem lt_iff_toInt {a b : MatchedItem} : a < b ↔ a.mValue.toInt < b.mValue.toInt := BitVec.slt_iff_toInt_lt

instance : Std.Total (fun a b : MatchedItem => ¬ b < a) := ⟨fun a b => by
  simp only [lt_iff_toInt]
  omega⟩

instance : IsTrans MatchedItem (fun a b => ¬ b < a) := ⟨fun a b c => by
  simp only [lt_iff_toInt]
  omega⟩

end MatchedItem

/-- In the order of `operator<`. -/
def Sorted (l : List MatchedItem) : Prop := l.Pairwise (fun a b => ¬ b < a)

/-- The loops of `merge2` with the rounds they have left: each writes one item of the resized `r`. -/
def mergeLoop : ℕ → List MatchedItem → List MatchedItem → List MatchedItem
  | 0, _, _ => []
  | k + 1, x :: a, y :: b => if x < y then x :: mergeLoop k a (y :: b) else y :: mergeLoop k (x :: a) b
  | k + 1, x :: a, [] => x :: mergeLoop k a []
  | k + 1, [], y :: b => y :: mergeLoop k [] b
  | _ + 1, [], [] => []

def merge2 (a b : List MatchedItem) : List MatchedItem := mergeLoop (a.length + b.length) a b

theorem mergeLoop_perm : ∀ (k : ℕ) (a b : List MatchedItem), a.length + b.length ≤ k → (mergeLoop k a b).Perm (a ++ b)
  | 0, [], [], _ => List.Perm.nil
  | 0, _ :: _, _, h => by simp at h
  | 0, [], _ :: _, h => by simp at h
  | k + 1, x :: a, y :: b, h => by
    simp only [List.length_cons] at h
    unfold mergeLoop
    split
    · exact (mergeLoop_perm k a (y :: b) (by simp only [List.length_cons]; omega)).cons x
    · have hb := mergeLoop_perm k (x :: a) b (by simp only [List.length_cons]; omega)
      exact (hb.cons y).trans List.perm_middle.symm
  | k + 1, x :: a, [], h => (mergeLoop_perm k a [] (by simpa using h)).cons x
  | k + 1, [], y :: b, h => (mergeLoop_perm k [] b (by simpa using h)).cons y
  | _ + 1, [], [], _ => List.Perm.nil

theorem merge2_perm (a b : List MatchedItem) : (merge2 a b).Perm (a ++ b) := mergeLoop_perm _ a b le_rfl

theorem mergeLoop_sorted : ∀ (k : ℕ) (a b : List MatchedItem), a.length + b.length ≤ k → Sorted a → Sorted b →
    Sorted (mergeLoop k a b)
  | 0, _, _, _, _, _ => List.Pairwise.nil
  | k + 1, x :: a, y :: b, h, ha, hb => by
    simp only [List.length_cons] at h
    obtain ⟨hxa, ha'⟩ := List.pairwise_cons.1 ha
    obtain ⟨hyb, hb'⟩ := List.pairwise_cons.1 hb
    unfold mergeLoop
    split
    · rename_i hlt
      have hk : a.length + (y :: b).length ≤ k := by simp only [List.length_cons]; omega
      refine List.pairwise_cons.2 ⟨fun z hz => ?_, mergeLoop_sorted k a (y :: b) hk ha' hb⟩
      rw [(mergeLoop_perm k a (y :: b) hk).mem_iff, List.mem_append, List.mem_cons] at hz
      rcases hz with hz | rfl | hz
      · exact hxa z hz
      · rw [MatchedItem.lt_iff_toInt] at hlt ⊢
        omega
      · have := hyb z hz
        rw [MatchedItem.lt_iff_toInt] at this hlt ⊢
        omega
    · rename_i hlt
      have hk : (x :: a).length + b.length ≤ k := by simp only [List.length_cons]; omega
      refine List.pairwise_cons.2 ⟨fun z hz => ?_, mergeLoop_sorted k (x :: a) b hk ha hb'⟩
      rw [(mergeLoop_perm k (x :: a) b hk).mem_iff, List.mem_append, List.mem_cons] at hz
      rcases hz with (rfl | hz) | hz
      · exact hlt
      · have := hxa z hz
        rw [MatchedItem.lt_iff_toInt] at this hlt ⊢
        omega
      · exact hyb z hz
  | k + 1, x :: a, [], h, ha, hb => by
    obtain ⟨hxa, ha'⟩ := List.pairwise_cons.1 ha
    have hk : a.length + ([] : List MatchedItem).length ≤ k := by simpa using h
    refine List.pairwise_cons.2 ⟨fun z hz => ?_, mergeLoop_sorted k a [] hk ha' hb⟩
    rw [(mergeLoop_perm k a [] hk).mem_iff, List.append_nil] at hz
    exact hxa z hz
  | k + 1, [], y :: b, h, ha, hb => by
    obtain ⟨hyb, hb'⟩ := List.pairwise_cons.1 hb
    have hk : ([] : List MatchedItem).length + b.length ≤ k := by simpa using h
    refine List.pairwise_cons.2 ⟨fun z hz => ?_, mergeLoop_sorted k [] b hk ha hb'⟩
    rw [(mergeLoop_perm k [] b hk).mem_iff, List.nil_append] at hz
    exact hyb z hz
  | _ + 1, [], [], _, _, _ => List.Pairwise.nil

theorem merge2_sorted {a b : List MatchedItem} (ha : Sorted a) (hb : Sorted b) : Sorted (merge2 a b) :=
  mergeLoop_sorted _ a b le_rfl ha hb

end Fzx
