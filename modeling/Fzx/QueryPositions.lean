import Fzx.Positions
import Fzx.QueryScore
/-!
# QueryPositions — the marks of a whole query

`Query.matchPositions` lets every term that is not negated mark into one vector.  A term only adds marks (`Adds`), and those
it adds do not depend on what is marked already, so on an item that matches the vector is the union over the terms
(`matchPositions_union`); no iterator leaves the vector and no assertion fails.
-/
namespace Fzx
namespace Query

open Lib

/-! ## matchPositions -/

/-- `std::vector::resize`. -/
def resize (n : ℕ) (v : List Bool) : List Bool := v.take n ++ List.replicate (n - v.length) false

/-- `n` times `*it++ = true`, the iterator moving by `step`; a fault where it is outside the vector. -/
def fill (step : ℤ) : ℕ → ℤ → List Bool → Option (List Bool)
  | 0, _, positions => some positions
  | n + 1, it, positions =>
    if 0 ≤ it ∧ it < positions.length then fill step n (it + step) (positions.set it.toNat true) else none

/-- One round of the loop of `matchPositions`; a fault where an assertion fails. -/
def matchPositionsStep (s : Bytes) (positions : List Bool) (item : Item) : Option (List Bool) :=
  if item.mNot then some positions
  else match item.mType with
    | .kFuzzy => (Fzx.matchPositions item.mText s (some positions)).bind (fun r => r.2)
    | .kSubstr =>
      if s.length < item.mText.length then none
      else
        let start := matchSubstrIndex item.mText s
        if start = -1 then none else fill 1 item.mText.length start positions
    | .kBegin => if s.length < item.mText.length then none else fill 1 item.mText.length 0 positions
    | .kEnd =>
      -- `rbegin()` stands at the last position
      if s.length < item.mText.length then none else fill (-1) item.mText.length (positions.length - 1) positions
    | .kExact => some (positions.map (fun _ => true))

def matchPositions (b : Build) (q : Query) (s : Bytes) (positions : List Bool) : Option (List Bool) :=
  if q.match b s = true then
    let positions := positions.take 0 -- `clear()`
    q.mItems.foldlM (matchPositionsStep s) (resize s.length positions)
  else none

/-! ## What a term marks -/

/-- The positions `fzx::matchPositions` chooses for a text. -/
def fuzzyMarks (text s : Bytes) : List ℕ :=
  ((Fzx.matchPositions text s (some (List.replicate s.length false))).bind (fun r => r.2)).elim [] marked

/-- The positions a term accounts for. -/
def Item.Marks (item : Item) (s : Bytes) (j : ℕ) : Prop :=
  match item.mType with
  | .kFuzzy => j ∈ fuzzyMarks item.mText s
  | .kSubstr => ∃ k, (Occurs item.mText s k ∧ ∀ i < k, ¬ Occurs item.mText s i) ∧ k ≤ j ∧ j < k + item.mText.length
  | .kBegin => j < item.mText.length
  | .kEnd => s.length ≤ j + item.mText.length
  | .kExact => True

/-! ## Adding marks -/

/-- The marks of `positions` stay, and `P` is added. -/
def Adds (positions positions' : List Bool) (P : ℕ → Prop) : Prop :=
  positions'.length = positions.length ∧
    ∀ j < positions.length, (positions'.getD j false = true ↔ positions.getD j false = true ∨ P j)

section

variable {positions positions' positions'' : List Bool} {P Q : ℕ → Prop}

theorem Adds.refl (hP : ∀ j, ¬ P j) : Adds positions positions P :=
  ⟨rfl, fun j _ => (or_iff_left (hP j)).symm⟩

theorem Adds.congr (h : Adds positions positions' P) (hPQ : ∀ j < positions.length, (P j ↔ Q j)) :
    Adds positions positions' Q :=
  ⟨h.1, fun j hj => (h.2 j hj).trans (or_congr_right (hPQ j hj))⟩

theorem Adds.trans (h : Adds positions positions' P) (h' : Adds positions' positions'' Q) :
    Adds positions positions'' (fun j => P j ∨ Q j) := by
  refine ⟨h'.1.trans h.1, fun j hj => ?_⟩
  rw [h'.2 j (h.1 ▸ hj), h.2 j hj, or_assoc]

theorem adds_setMarks (ps : List ℕ) (positions : List Bool) : Adds positions (setMarks ps positions) (fun j => j ∈ ps) := by
  refine ⟨length_setMarks ps positions, fun j hj => ?_⟩
  rw [getD_setMarks ps positions hj, Bool.or_eq_true, decide_eq_true_iff, or_comm]

theorem adds_set (p : ℕ) (positions : List Bool) : Adds positions (positions.set p true) (fun j => j = p) :=
  (adds_setMarks [p] positions).congr (fun _ _ => List.mem_singleton)

/-- **An iterator that stays inside marks where it passes.** -/
theorem fill_adds (step : ℤ) : ∀ (n : ℕ) (it : ℤ) (positions : List Bool),
    (∀ i < n, 0 ≤ it + i * step ∧ it + i * step < positions.length) → ∃ positions',
      fill step n it positions = some positions' ∧ Adds positions positions' (fun j => ∃ i < n, (j : ℤ) = it + i * step)
  | 0, it, positions, _ => by
    refine ⟨positions, rfl, Adds.refl ?_⟩
    rintro j ⟨i, hi, -⟩
    exact Nat.not_lt_zero i hi
  | n + 1, it, positions, h => by
    have h0 := h 0 (Nat.succ_pos n)
    rw [Nat.cast_zero, zero_mul, add_zero] at h0
    obtain ⟨positions', hfill, hadds⟩ := fill_adds step n (it + step) (positions.set it.toNat true) (fun i hi => by
      have hi := h (i + 1) (by omega)
      rw [List.length_set]
      rw [Nat.cast_succ, add_mul, one_mul, add_comm (i * step), ← add_assoc] at hi
      exact hi)
    refine ⟨positions', by rw [fill, if_pos h0, hfill], ((adds_set it.toNat positions).trans hadds).congr (fun j _ => ?_)⟩
    constructor
    · rintro (rfl | ⟨i, hi, he⟩)
      · exact ⟨0, Nat.succ_pos n, by rw [Nat.cast_zero, zero_mul, add_zero, Int.toNat_of_nonneg h0.1]⟩
      · exact ⟨i + 1, by omega, by rw [he]; push_cast; ring⟩
    · rintro ⟨i, hi, he⟩
      cases i with
      | zero =>
        rw [Nat.cast_zero, zero_mul, add_zero] at he
        exact .inl (by omega)
      | succ i => exact .inr ⟨i, by omega, by rw [he]; push_cast; ring⟩

/-- The run of a forward iterator. -/
theorem fill_forward {n k : ℕ} (h : k + n ≤ positions.length) : ∃ positions',
    fill 1 n k positions = some positions' ∧ Adds positions positions' (fun j => k ≤ j ∧ j < k + n) := by
  obtain ⟨positions', hfill, hadds⟩ := fill_adds 1 n k positions (fun i hi => by omega)
  refine ⟨positions', hfill, hadds.congr (fun j _ => ⟨?_, ?_⟩)⟩
  · rintro ⟨i, hi, he⟩
    omega
  · rintro ⟨hk, hj⟩
    exact ⟨j - k, by omega, by omega⟩

/-- The run of a reverse iterator from the last position. -/
theorem fill_reverse {n : ℕ} (h : n ≤ positions.length) : ∃ positions',
    fill (-1) n (positions.length - 1) positions = some positions' ∧
      Adds positions positions' (fun j => positions.length ≤ j + n) := by
  obtain ⟨positions', hfill, hadds⟩ := fill_adds (-1) n (positions.length - 1) positions (fun i hi => by omega)
  refine ⟨positions', hfill, hadds.congr (fun j hj => ⟨?_, ?_⟩)⟩
  · rintro ⟨i, hi, he⟩
    omega
  · intro hj'
    exact ⟨positions.length - 1 - j, by omega, by omega⟩

end

/-! ## The terms -/

section

variable {text s : Bytes}

/-- **A fuzzy text** that is a subsequence adds the positions chosen for it, which spell it. -/
theorem fuzzy_adds (hne : text ≠ []) (hmax : s.length ≤ kMatchMaxLen) (hsub : (lower text).Sublist (lower s)) :
    ((fuzzyMarks text s).length = text.length ∧ (fuzzyMarks text s).Pairwise (· < ·) ∧
      lower ((fuzzyMarks text s).map (fun j => s.getD j 0)) = lower text) ∧
    ∀ positions, positions.length = s.length → ∃ positions',
      (Fzx.matchPositions text s (some positions)).bind (fun r => r.2) = some positions' ∧
        Adds positions positions' (fun j => j ∈ fuzzyMarks text s) := by
  obtain ⟨ps, ⟨hlen, hpw, hin, hspell⟩, score, hrun⟩ := matchPositions_columns hne hmax hsub
  have hmarks : fuzzyMarks text s = ps := by
    rw [fuzzyMarks, hrun _ List.length_replicate]
    exact marked_setMarks hpw hin
  rw [hmarks]
  exact ⟨⟨hlen, hpw, hspell⟩, fun positions hp => ⟨_, by rw [hrun positions hp]; rfl, adds_setMarks ps positions⟩⟩

/-- A text that occurs adds its leftmost occurrence. -/
theorem substr_adds {k : ℕ} (hk : Occurs text s k) (hlow : ∀ i < k, ¬ Occurs text s i) {positions : List Bool}
    (hp : positions.length = s.length) : ∃ positions', fill 1 text.length k positions = some positions' ∧
      Adds positions positions'
        (fun j => ∃ k, (Occurs text s k ∧ ∀ i < k, ¬ Occurs text s i) ∧ k ≤ j ∧ j < k + text.length) := by
  obtain ⟨positions', hfill, hadds⟩ := fill_forward (hp ▸ hk.1)
  refine ⟨positions', hfill, hadds.congr (fun j _ => ⟨fun h => ⟨k, ⟨hk, hlow⟩, h⟩, ?_⟩)⟩
  rintro ⟨k', ⟨hk', hlow'⟩, h⟩
  obtain rfl : k' = k := by
    rcases Nat.lt_trichotomy k' k with hlt | he | hlt
    · exact absurd hk' (hlow k' hlt)
    · exact he
    · exact absurd hk (hlow' k hlt)
  exact h

/-- **A term that matches adds what it accounts for**; a negated one adds nothing. -/
theorem matchPositionsStep_adds {b : Build} {item : Item} (htext : item.mText ≠ [] ∧ (0 : UInt8) ∉ item.mText)
    (hmax : s.length ≤ kMatchMaxLen) (hm : (!(!item.matches b s ^^ item.mNot)) = true) {positions : List Bool}
    (hp : positions.length = s.length) : ∃ positions', matchPositionsStep s positions item = some positions' ∧
      Adds positions positions' (fun j => item.mNot = false ∧ item.Marks s j) := by
  obtain ⟨type, negated, text⟩ := item
  dsimp only at htext hm
  cases negated with
  | true => exact ⟨positions, rfl, Adds.refl (fun j h => Bool.noConfusion h.1)⟩
  | false =>
    have hm : Item.matches b ⟨type, false, text⟩ s = true := by simpa using hm
    simp only [true_and]
    cases type with
    | kFuzzy =>
      obtain ⟨positions', hrun, hadds⟩ := (fuzzy_adds htext.1 hmax (sublist_of_matchFuzzy htext.2 hm)).2 positions hp
      exact ⟨positions', hrun, hadds⟩
    | kSubstr =>
      rcases matchSubstrIndex_cases text s with ⟨k, hindex, hk, hlow⟩ | ⟨hindex, -⟩
      · obtain ⟨positions', hfill, hadds⟩ := substr_adds hk hlow hp
        refine ⟨positions', ?_, hadds⟩
        have hlen := hk.1
        rw [matchPositionsStep]
        dsimp only
        rw [if_neg Bool.false_ne_true, if_neg (by omega), hindex, if_neg (by omega), hfill]
      · exact absurd hindex ((matchSubstr_iff_index text s).1 hm)
    | kBegin =>
      have hlen := ((matchBegin_iff text s).1 hm).length_le
      rw [length_lower, length_lower] at hlen
      obtain ⟨positions', hfill, hadds⟩ := @fill_forward positions text.length 0 (by omega)
      refine ⟨positions', ?_, hadds.congr (fun j _ => ?_)⟩
      · rw [matchPositionsStep]
        dsimp only
        rw [if_neg Bool.false_ne_true, if_neg (by omega)]
        exact hfill
      · rw [Nat.zero_add]
        exact and_iff_right (Nat.zero_le j)
    | kEnd =>
      have hlen := ((matchEnd_iff text s).1 hm).length_le
      rw [length_lower, length_lower] at hlen
      obtain ⟨positions', hfill, hadds⟩ := @fill_reverse positions text.length (by omega)
      refine ⟨positions', ?_, hadds.congr (fun j _ => by rw [hp]; rfl)⟩
      rw [matchPositionsStep]
      dsimp only
      rw [if_neg Bool.false_ne_true, if_neg (by omega), hfill]
    | kExact =>
      refine ⟨positions.map (fun _ => true), rfl, ?_⟩
      rw [← setMarks_range]
      exact (adds_setMarks _ positions).congr (fun j hj => iff_of_true (List.mem_range.2 hj) trivial)

/-- **The terms one after the other add all that they account for.** -/
theorem foldlM_adds {b : Build} (hmax : s.length ≤ kMatchMaxLen) : ∀ (items : List Item) (positions : List Bool),
    (∀ item ∈ items, item.mText ≠ [] ∧ (0 : UInt8) ∉ item.mText) →
    items.all (fun item => !(!item.matches b s ^^ item.mNot)) = true → positions.length = s.length →
    ∃ positions', items.foldlM (matchPositionsStep s) positions = some positions' ∧
      Adds positions positions' (fun j => ∃ item ∈ items, item.mNot = false ∧ item.Marks s j)
  | [], positions, _, _, _ => by
    refine ⟨positions, rfl, Adds.refl ?_⟩
    rintro j ⟨item, hitem, -⟩
    cases hitem
  | item :: items, positions, htext, hm, hp => by
    rw [List.all_cons, Bool.and_eq_true] at hm
    obtain ⟨positions₁, hstep, hadds₁⟩ := matchPositionsStep_adds (htext item List.mem_cons_self) hmax hm.1 hp
    obtain ⟨positions₂, hrun, hadds₂⟩ := foldlM_adds hmax items positions₁
      (fun i hi => htext i (List.mem_cons_of_mem _ hi)) hm.2 (hadds₁.1.trans hp)
    refine ⟨positions₂, ?_, (hadds₁.trans hadds₂).congr (fun j _ => ?_)⟩
    · rw [List.foldlM_cons, hstep]
      exact hrun
    · simp only [List.mem_cons, exists_eq_or_imp]

end

/-- **The marks are the union over the terms that are not negated**: the vector has the size of the item, whatever it held
before, and the positions of each fuzzy text spell it. -/
theorem matchPositions_union (b : Build) (query s : Bytes) (positions : List Bool) (hnul : (0 : UInt8) ∉ query)
    (hmax : s.length ≤ kMatchMaxLen) (hm : (parse query).match b s = true) :
    ∃ marks, (parse query).matchPositions b s positions = some marks ∧ marks.length = s.length ∧
      (∀ j < s.length, marks.getD j false = true ↔
        ∃ item ∈ (parse query).mItems, item.mNot = false ∧ item.Marks s j) ∧
      ∀ item ∈ (parse query).mItems, item.mNot = false → item.mType = .kFuzzy →
        (fuzzyMarks item.mText s).length = item.mText.length ∧ (fuzzyMarks item.mText s).Pairwise (· < ·) ∧
          lower ((fuzzyMarks item.mText s).map (fun j => s.getD j 0)) = lower item.mText := by
  have hq := textsOk_parse hnul
  have hresize : resize s.length (positions.take 0) = List.replicate s.length false := by
    rw [resize, List.take_zero, List.take_nil, List.nil_append, List.length_nil, Nat.sub_zero]
  obtain ⟨marks, hrun, hlen, hadds⟩ :=
    foldlM_adds hmax (parse query).mItems (List.replicate s.length false) hq hm List.length_replicate
  rw [List.length_replicate] at hlen hadds
  refine ⟨marks, ?_, hlen, fun j hj => ?_, fun item hitem hnot htype => ?_⟩
  · rw [matchPositions, if_pos hm]
    dsimp only
    rw [hresize]
    exact hrun
  · rw [hadds j hj, List.getD_replicate _ hj]
    exact or_iff_right Bool.false_ne_true
  · have hf : item.mText ∈ (parse query).fuzzyTexts :=
      List.mem_map.2 ⟨item, List.mem_filter.2 ⟨hitem, by rw [hnot, htype]; rfl⟩, rfl⟩
    obtain ⟨hne, hsub⟩ := sublist_of_match hq hm item.mText hf
    exact (fuzzy_adds hne hmax hsub).1

/-- `^a !c d$` on `abd`. -/
theorem matchPositions_union_abd : ∃ marks, (parse [94, 97, 32, 33, 99, 32, 100, 36]).matchPositions .sse2 [97, 98, 100] [true]
    = some marks ∧ marks.length = 3 := by
  obtain ⟨marks, hrun, hlen, -, -⟩ := matchPositions_union .sse2 [94, 97, 32, 33, 99, 32, 100, 36] [97, 98, 100] [true]
    (by decide) (by decide) (by decide +kernel)
  exact ⟨marks, hrun, hlen⟩

end Query
end Fzx
