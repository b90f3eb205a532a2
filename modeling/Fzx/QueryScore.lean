import Fzx.MatchedItem
import Fzx.QueryMatch
import Fzx.SimdBest
/-!
# QueryScore — the score of a query, and the order of its matches

`Query.score` averages the scalar scores of the query's fuzzy texts, on every build (`Query.score_eq`).  Two questions
about that average: when it is a number (`scorable_iff`), and when the packed order of `MatchedItem` is the order of the
scores (`ranksByScore_iff`).
-/
namespace Fzx

open Lib

namespace Query

/-! ## The average -/

/-- The texts `score` adds up. -/
def fuzzyTexts (q : Query) : List Bytes :=
  (q.mItems.filter (fun item => !item.mNot && item.mType == .kFuzzy)).map Item.mText

theorem scoreN_eq (b : Build) (N : KernelSize) {needle : Bytes} (haystack : Bytes) (hlo : N.val - 3 ≤ needle.length)
    (hhi : needle.length ≤ N.val) : scoreN b N needle haystack = Fzx.score needle haystack := by
  cases b with
  | scalar => rfl
  | sse2 => exact scoreSSE_eq_scoreFrom _ hlo hhi
  | neon => exact scoreNeon_eq_scoreFrom _ hlo hhi

/-- **Every build scores a text as the scalar code does.** -/
theorem Item.score_eq (b : Build) (item : Item) (s : Bytes) : item.score b s = Fzx.score item.mText s := by
  unfold Item.score
  split
  · rename_i h
    exact score1_eq_scoreFrom _ h
  iterate 3 exact scoreN_eq b .n4 s (by simp only [KernelSize.val]; omega) (by simp only [KernelSize.val]; omega)
  iterate 4 exact scoreN_eq b .n8 s (by simp only [KernelSize.val]; omega) (by simp only [KernelSize.val]; omega)
  iterate 4 exact scoreN_eq b .n12 s (by simp only [KernelSize.val]; omega) (by simp only [KernelSize.val]; omega)
  iterate 4 exact scoreN_eq b .n16 s (by simp only [KernelSize.val]; omega) (by simp only [KernelSize.val]; omega)
  · rfl

theorem foldl_scoreStep (b : Build) (s : Bytes) : ∀ (items : List Item) (sum : Score) (div : ℕ),
    items.foldl (scoreStep b s) (sum, div) =
      (sum + ((fuzzyTexts { mItems := items }).map (fun t => Fzx.score t s)).sum,
        div + (fuzzyTexts { mItems := items }).length)
  | [], sum, div => by simp [fuzzyTexts]
  | item :: items, sum, div => by
    rw [List.foldl_cons, scoreStep]
    by_cases h : (!item.mNot && item.mType == .kFuzzy) = true
    · obtain ⟨hn, ht⟩ := Bool.and_eq_true_iff.1 h
      have hf : fuzzyTexts { mItems := item :: items } = item.mText :: fuzzyTexts { mItems := items } := by
        simp [fuzzyTexts, h]
      rw [hf, if_neg (by simpa using hn), eq_of_beq ht]
      simp only [foldl_scoreStep b s items, Item.score_eq, List.map_cons, List.sum_cons, List.length_cons, add_assoc,
        Nat.add_comm 1]
    · have hf : fuzzyTexts { mItems := item :: items } = fuzzyTexts { mItems := items } := by
        simp [fuzzyTexts, h]
      rw [hf]
      by_cases hn : item.mNot = true
      · rw [if_pos hn, foldl_scoreStep b s items]
      · rw [if_neg hn]
        cases ht : item.mType with
        | kFuzzy => simp [hn, ht] at h
        | kSubstr => exact foldl_scoreStep b s items sum div
        | kBegin => exact foldl_scoreStep b s items sum div
        | kEnd => exact foldl_scoreStep b s items sum div
        | kExact => exact foldl_scoreStep b s items sum div

/-- **The score is the average over the fuzzy texts**, on every build. -/
theorem score_eq (b : Build) (q : Query) (s : Bytes) : q.score b s =
    if q.fuzzyTexts.length = 0 then .fin 0
    else ((q.fuzzyTexts.map (fun t => Fzx.score t s)).sum).divNat q.fuzzyTexts.length := by
  rw [score, foldl_scoreStep]
  simp only [← Flt.zero_eq_fin, zero_add]

/-! ## The texts of a parsed query -/

theorem parseSigils_texts (q : Query) {r : Bytes} (negated : Bool) (hne : r ≠ []) :
    ∀ item ∈ (q.parseSigils r negated).mItems, item ∈ q.mItems ∨ (item.mText ≠ [] ∧ item.mText ⊆ r) := by
  have hadd : ∀ text type, text ≠ [] → text ⊆ r → ∀ item ∈ (q.add text type negated).mItems,
      item ∈ q.mItems ∨ (item.mText ≠ [] ∧ item.mText ⊆ r) := by
    intro text type h0 hsub item hitem
    rcases List.mem_append.1 hitem with h | h
    · exact .inl h
    · rw [List.mem_singleton.1 h]
      exact .inr ⟨h0, hsub⟩
  have hskip : ∀ item ∈ q.mItems, item ∈ q.mItems ∨ (item.mText ≠ [] ∧ item.mText ⊆ r) := fun _ h => .inl h
  have hcut : ∀ k n, 0 < n → k + n ≤ r.length → (r.drop k).take n ≠ [] ∧ (r.drop k).take n ⊆ r := by
    intro k n hn hlen
    constructor
    · intro h
      have := congrArg List.length h
      rw [List.length_take, List.length_drop, List.length_nil] at this
      omega
    · exact fun c hc => List.mem_of_mem_drop (List.mem_of_mem_take hc)
  unfold parseSigils
  dsimp only
  split_ifs with h1 h2 h3 h4 h5 h6 h7 h8
  · exact hadd _ _ (hcut 1 _ (by omega) (by omega)).1 (hcut 1 _ (by omega) (by omega)).2
  · exact hskip
  · exact hadd _ _ (hcut 1 _ (by omega) (by omega)).1 (hcut 1 _ (by omega) (by omega)).2
  · exact hskip
  · exact hadd _ _ (hcut 1 _ (by omega) (by omega)).1 (hcut 1 _ (by omega) (by omega)).2
  · exact hskip
  · exact hadd _ _ (hcut 0 _ (by omega) (by omega)).1 (hcut 0 _ (by omega) (by omega)).2
  · exact hskip
  · exact hadd _ _ hne (fun _ h => h)

theorem parseSubstr_texts (q : Query) {t : Bytes} (hne : t ≠ []) :
    ∀ item ∈ (q.parseSubstr t).mItems, item ∈ q.mItems ∨ (item.mText ≠ [] ∧ item.mText ⊆ t) := by
  intro item hitem
  unfold parseSubstr at hitem
  dsimp only at hitem
  split_ifs at hitem with h1 h2
  · exact .inl hitem
  · rcases parseSigils_texts q _ (by simpa using h2) item hitem with h | ⟨h0, h⟩
    · exact .inl h
    · exact .inr ⟨h0, fun c hc => List.mem_of_mem_drop (h hc)⟩
  · exact parseSigils_texts q _ hne item hitem

/-- **A parsed query's texts are non-empty and made of the string's bytes.** -/
theorem parse_texts (query : Bytes) : ∀ item ∈ (parse query).mItems, item.mText ≠ [] ∧ item.mText ⊆ query := by
  rw [parse_eq_foldl]
  have h : ∀ (ts : List Bytes) (q : Query), (∀ t ∈ ts, t ≠ [] ∧ t ⊆ query) →
      (∀ item ∈ q.mItems, item.mText ≠ [] ∧ item.mText ⊆ query) →
      ∀ item ∈ (ts.foldl parseSubstr q).mItems, item.mText ≠ [] ∧ item.mText ⊆ query := by
    intro ts
    induction ts with
    | nil => exact fun q _ hq => hq
    | cons t ts ih =>
      intro q hts hq
      refine ih _ (fun u hu => hts u (List.mem_cons_of_mem _ hu)) (fun item hitem => ?_)
      obtain ⟨hne, hsub⟩ := hts t List.mem_cons_self
      rcases parseSubstr_texts q hne item hitem with h | ⟨h0, h⟩
      · exact hq item h
      · exact ⟨h0, fun c hc => hsub (h hc)⟩
  refine h _ _ (fun t ht => ?_) (fun _ h => by cases h)
  obtain ⟨hne, -, pre, post, he, -⟩ := mem_terms.1 ht
  exact ⟨hne, fun c hc => by rw [he]; simp [hc]⟩

theorem fuzzyTexts_ne_nil (query : Bytes) : ∀ t ∈ (parse query).fuzzyTexts, t ≠ [] := by
  intro t ht
  obtain ⟨item, hitem, rfl⟩ := List.mem_map.1 ht
  exact (parse_texts query item (List.mem_of_mem_filter hitem)).1

end Query

/-! ## The score as a number -/

theorem score_ne_nan {t s : Bytes} (ht : t ≠ []) : score t s ≠ .nan := by
  rw [score_eq ht]
  split_ifs <;> simp

theorem score_eq_posInf_iff {t s : Bytes} (ht : t ≠ []) :
    score t s = .posInf ↔ s.length ≤ kMatchMaxLen ∧ t.length = s.length := by
  rw [score_eq ht]
  split_ifs with h1 h2
  · simp only [false_iff]
    omega
  · simp only [true_iff]
    omega
  · simp [h2]

theorem score_eq_negInf_iff {t s : Bytes} (ht : t ≠ []) (hs : s ≠ []) : score t s = .negInf ↔
    s.length > kMatchMaxLen ∨ (t.length ≠ s.length ∧ ¬ (lower t).Sublist (lower s)) := by
  have hpos : 0 < s.length := List.length_pos_iff.2 hs
  rw [score_eq ht]
  split_ifs with h1 h2
  · refine iff_of_true rfl (h1.imp_right (fun h => ⟨by omega, fun hsub => ?_⟩))
    have := hsub.length_le
    rw [length_lower, length_lower] at this
    omega
  · simp only [false_iff]
    omega
  · rw [Flt.ofBot_eq_negInf, ← not_iff_not, ← ne_eq, bestScore_ne_bot_iff ht hpos]
    have h1' : ¬ s.length > kMatchMaxLen := fun h => h1 (.inl h)
    simp [h1', h2]

theorem score_value_bounds {t s : Bytes} (ht : t ≠ []) : -2048 ≤ (score t s).value ∧ (score t s).value ≤ 204800 := by
  rw [score_eq ht]
  split_ifs with h1 h2
  · simp [Flt.value]
  · simp [Flt.value]
  · cases hb : bestScore t s using WithBot.recBotCoe with
    | bot => simp [Flt.value]
    | coe v =>
      rw [not_or, not_lt, not_lt] at h1
      exact bestScore_bounds ht (by omega) h1.1 hb

theorem average_bounds {vs : List ℤ} {lo hi : ℤ} (h : ∀ v ∈ vs, lo ≤ v ∧ v ≤ hi) (hne : vs ≠ []) :
    (lo : ℚ) ≤ (vs.sum : ℚ) / vs.length ∧ (vs.sum : ℚ) / vs.length ≤ hi := by
  have hpos : (0 : ℚ) < vs.length := by exact_mod_cast List.length_pos_iff.2 hne
  have hlo : vs.length • lo ≤ vs.sum := List.card_nsmul_le_sum vs lo (fun v hv => (h v hv).1)
  have hhi : vs.sum ≤ vs.length • hi := List.sum_le_card_nsmul vs hi (fun v hv => (h v hv).2)
  rw [nsmul_eq_mul] at hlo hhi
  constructor
  · rw [le_div_iff₀ hpos, mul_comm]
    exact_mod_cast hlo
  · rw [div_le_iff₀ hpos, mul_comm]
    exact_mod_cast hhi

namespace Query

section

variable {q : Query} {s : Bytes} (b : Build) (hq : ∀ t ∈ q.fuzzyTexts, t ≠ [])
include hq

/-- The average, by the infinities among the texts' scores. -/
theorem score_eq_cases : q.score b s =
    if ∃ t ∈ q.fuzzyTexts, Fzx.score t s = .posInf then
      (if ∃ t ∈ q.fuzzyTexts, Fzx.score t s = .negInf then .nan else .posInf)
    else if ∃ t ∈ q.fuzzyTexts, Fzx.score t s = .negInf then .negInf
    else .fin ((((q.fuzzyTexts.map (fun t => (Fzx.score t s).value)).sum : ℤ) : ℚ) / q.fuzzyTexts.length) := by
  have hnan : Flt.nan ∉ q.fuzzyTexts.map (fun t => Fzx.score t s) := by
    intro h
    obtain ⟨t, ht, he⟩ := List.mem_map.1 h
    exact score_ne_nan (hq t ht) he
  rw [score_eq]
  by_cases h0 : q.fuzzyTexts.length = 0
  · rw [if_pos h0, List.length_eq_zero_iff.1 h0]
    simp
  · rw [if_neg h0, Flt.sum_eq hnan]
    simp only [List.mem_map, List.map_map]
    split_ifs <;> rfl

theorem score_eq_nan_iff : q.score b s = .nan ↔
    (∃ t ∈ q.fuzzyTexts, Fzx.score t s = .posInf) ∧ ∃ t ∈ q.fuzzyTexts, Fzx.score t s = .negInf := by
  rw [score_eq_cases b hq]
  split_ifs with h1 h2 h2 <;> simp_all

theorem score_fin_bounds {v : ℚ} (h : q.score b s = .fin v) : -2048 ≤ v ∧ v ≤ 204800 := by
  rw [score_eq_cases b hq] at h
  split_ifs at h
  obtain rfl := Flt.fin.inj h
  by_cases h0 : q.fuzzyTexts = []
  · simp [h0]
  · have hb := @average_bounds (q.fuzzyTexts.map (fun t => (Fzx.score t s).value)) (-2048) 204800
      (fun v hv => by
        obtain ⟨t, ht, rfl⟩ := List.mem_map.1 hv
        exact score_value_bounds (hq t ht)) (by simpa using h0)
    rw [List.length_map] at hb
    exact_mod_cast hb

end

end Query

/-- An item a query matches has a score that both assertions of the packing admit. -/
def Scorable (query s : Bytes) : Prop :=
  (Query.parse query).match .sse2 s = true →
    (Query.parse query).score .sse2 s ≠ .nan ∧
      ∀ v, (Query.parse query).score .sse2 s = .fin v → -16777216 ≤ v ∧ v ≤ 16777216

/-- **A matched item's score is a number unless one term has the item's length and another matched the padding only.** -/
theorem scorable_iff (query s : Bytes) (hs : s ≠ []) : Scorable query s ↔
    (Query.parse query).match .sse2 s = false ∨ s.length > kMatchMaxLen ∨
      (∀ t ∈ (Query.parse query).fuzzyTexts, t.length ≠ s.length) ∨
      (∀ t ∈ (Query.parse query).fuzzyTexts, t.length ≠ s.length → (lower t).Sublist (lower s)) := by
  have hq := Query.fuzzyTexts_ne_nil query
  have hpos : (∃ t ∈ (Query.parse query).fuzzyTexts, score t s = .posInf) ↔
      s.length ≤ kMatchMaxLen ∧ ∃ t ∈ (Query.parse query).fuzzyTexts, t.length = s.length := by
    rw [← exists_and_left]
    refine exists_congr (fun t => ?_)
    constructor
    · rintro ⟨ht, he⟩
      obtain ⟨h1, h2⟩ := (score_eq_posInf_iff (hq t ht)).1 he
      exact ⟨h1, ht, h2⟩
    · rintro ⟨h1, ht, h2⟩
      exact ⟨ht, (score_eq_posInf_iff (hq t ht)).2 ⟨h1, h2⟩⟩
  have hneg : s.length ≤ kMatchMaxLen → ((∃ t ∈ (Query.parse query).fuzzyTexts, score t s = .negInf) ↔
      ∃ t ∈ (Query.parse query).fuzzyTexts, t.length ≠ s.length ∧ ¬ (lower t).Sublist (lower s)) := by
    intro hmax
    refine exists_congr (fun t => and_congr_right (fun ht => ?_))
    rw [score_eq_negInf_iff (hq t ht) hs]
    exact or_iff_right (by omega)
  -- the only way to fail is a NaN, the sum of both infinities
  have hiff : Scorable query s ↔ ((Query.parse query).match .sse2 s = true →
      ¬ ((∃ t ∈ (Query.parse query).fuzzyTexts, score t s = .posInf) ∧
        ∃ t ∈ (Query.parse query).fuzzyTexts, score t s = .negInf)) := by
    refine imp_congr_right (fun _ => ?_)
    rw [← Query.score_eq_nan_iff .sse2 hq]
    refine ⟨fun h => h.1, fun h => ⟨h, fun v hv => ?_⟩⟩
    obtain ⟨h1, h2⟩ := Query.score_fin_bounds .sse2 hq hv
    exact ⟨by linarith, by linarith⟩
  rw [hiff, hpos, ← Bool.not_eq_true, imp_iff_not_or, not_and_or, not_and_or, not_le]
  refine or_congr_right ?_
  by_cases hmax : s.length ≤ kMatchMaxLen
  · rw [hneg hmax, or_assoc]
    push Not
    exact Iff.rfl
  · exact iff_of_true (.inl (.inl (by omega))) (.inl (by omega))

/-- `a` is all of the item `a`, and the NUL of the second term is found in its padding: a NaN. -/
theorem not_scorable : ¬ ∀ query s : Bytes, s ≠ [] → Scorable query s := by
  intro h
  have hnan := (h [97, 32, 97, 0] [97] (by decide) (by decide +kernel)).1
  exact hnan (by decide +kernel)

/-- Two terms, one of the item's length: both are subsequences of it. -/
theorem scorable_ab : Scorable [97, 98, 32, 97] [97, 98] :=
  (scorable_iff _ _ (by decide)).2 (.inr (.inr (.inr (by decide +kernel))))

/-! ## The order of the matches -/

/-- Two matches are ranked by score, best first, and then by index. -/
def RanksByScore (b : Build) (q : Query) (s1 s2 : Bytes) (i1 i2 : UInt32) : Prop :=
  ∃ m1 m2, MatchedItem.new i1 (q.score b s1) = some m1 ∧ MatchedItem.new i2 (q.score b s2) = some m2 ∧
    (m1 < m2 ↔ Flt.lt (q.score b s2) (q.score b s1) = true ∨ (q.score b s1 = q.score b s2 ∧ i1 < i2))

/-- The best scores of the fuzzy texts, added up. -/
noncomputable def bestSum (q : Query) (s : Bytes) : ℤ := (q.fuzzyTexts.map (fun t => (bestScore t s).unbotD 0)).sum

/-- One of the fuzzy texts is as long as the item. -/
def Whole (q : Query) (s : Bytes) : Prop := ∃ t ∈ q.fuzzyTexts, t.length = s.length

/-- The texts of a query as `parse` makes them from a string without NULs. -/
def TextsOk (q : Query) : Prop := ∀ item ∈ q.mItems, item.mText ≠ [] ∧ (0 : UInt8) ∉ item.mText

theorem textsOk_parse {query : Bytes} (hnul : (0 : UInt8) ∉ query) : TextsOk (Query.parse query) := fun item hitem =>
  let h := Query.parse_texts query item hitem
  ⟨h.1, fun h0 => hnul (h.2 h0)⟩

/-- **A fuzzy text that matches is a subsequence**, on every build. -/
theorem sublist_of_matchFuzzy {b : Build} {t s : Bytes} (hnul : (0 : UInt8) ∉ t) (h : matchFuzzy b t s = true) :
    (lower t).Sublist (lower s) := by
  have hlast : t.getLast? ≠ some 0 := fun h => hnul (List.mem_of_getLast? h)
  cases b with
  | sse2 => exact (matchFuzzySSE_iff_of_getLast hlast s).1 h
  | scalar => exact (matchFuzzySSE_iff_of_getLast hlast s).1 (matchFuzzySSE_of_naive t s h)
  | neon => exact (matchFuzzySSE_iff_of_getLast hlast s).1 (matchFuzzySSE_of_naive t s h)

theorem sublist_of_match {b : Build} {q : Query} {s : Bytes} (hq : TextsOk q) (hm : q.match b s = true) :
    ∀ t ∈ q.fuzzyTexts, t ≠ [] ∧ (lower t).Sublist (lower s) := by
  intro t ht
  obtain ⟨item, hitem, rfl⟩ := List.mem_map.1 ht
  obtain ⟨hmem, hf⟩ := List.mem_filter.1 hitem
  obtain ⟨hn, htype⟩ := Bool.and_eq_true_iff.1 hf
  have h := List.all_eq_true.1 hm item hmem
  rw [Bool.not_eq_true'] at hn
  rw [hn, Bool.xor_false, Bool.not_not, Query.Item.matches, eq_of_beq htype] at h
  exact ⟨(hq item hmem).1, sublist_of_matchFuzzy (hq item hmem).2 h⟩

open Classical in
/-- **The score of a match**: infinite as soon as a text is as long as the item, else the exact average. -/
theorem score_of_match {b : Build} {q : Query} {s : Bytes} (hq : TextsOk q) (hs : s ≠ []) (hmax : s.length ≤ kMatchMaxLen)
    (hm : q.match b s = true) :
    q.score b s = if Whole q s then .posInf else .fin ((bestSum q s : ℚ) / q.fuzzyTexts.length) := by
  have hsub := sublist_of_match hq hm
  have hno : ¬ ∃ t ∈ q.fuzzyTexts, score t s = .negInf := by
    rintro ⟨t, ht, he⟩
    rcases (score_eq_negInf_iff (hsub t ht).1 hs).1 he with h | h
    · omega
    · exact h.2 (hsub t ht).2
  have hwhole : (∃ t ∈ q.fuzzyTexts, score t s = .posInf) ↔ Whole q s :=
    exists_congr (fun t => and_congr_right (fun ht => by
      rw [score_eq_posInf_iff (hsub t ht).1]
      exact and_iff_right hmax))
  rw [Query.score_eq_cases b (fun t ht => (hsub t ht).1), if_neg hno, if_neg hno]
  by_cases hw : Whole q s
  · rw [if_pos (hwhole.2 hw), if_pos hw]
  · rw [if_neg (fun h => hw (hwhole.1 h)), if_neg hw, bestSum]
    have hval : q.fuzzyTexts.map (fun t => (score t s).value)
        = q.fuzzyTexts.map (fun t => (bestScore t s).unbotD 0) := by
      refine List.map_congr_left (fun t ht => ?_)
      have hlen := (hsub t ht).2.length_le
      rw [length_lower, length_lower] at hlen
      rw [score_eq (hsub t ht).1, if_neg (by omega), if_neg (fun h => hw ⟨t, ht, h⟩)]
      cases bestScore t s using WithBot.recBotCoe <;> rfl
    rw [hval]

theorem truncate_div (z : ℤ) (n : ℕ) : MatchedItem.truncate ((z : ℚ) / n) = z.tdiv n := by
  unfold MatchedItem.truncate
  rcases Nat.eq_zero_or_pos n with rfl | hn
  · simp
  have hn' : (0 : ℚ) < n := by exact_mod_cast hn
  split
  · rename_i h
    have hz : z < 0 := by
      rw [div_lt_iff₀ hn', zero_mul] at h
      exact_mod_cast h
    have e : ⌈(z : ℚ) / n⌉ = -⌊((-z : ℤ) : ℚ) / n⌋ := by
      rw [← Int.ceil_neg]
      congr 1
      push_cast
      ring
    rw [e, Rat.floor_intCast_div_natCast, ← Int.tdiv_eq_ediv_of_nonneg (by omega), Int.neg_tdiv, neg_neg]
  · rename_i h
    have hz : 0 ≤ z := by
      rw [not_lt, le_div_iff₀ hn', zero_mul] at h
      exact_mod_cast h
    rw [Rat.floor_intCast_div_natCast, Int.tdiv_eq_ediv_of_nonneg hz]

/-- The order of two averages over one count is that of the sums; that of their truncations may be coarser. -/
theorem average_order {z1 z2 : ℤ} {n : ℕ} (h0 : n = 0 → z1 = z2) (i1 i2 : UInt32) :
    ((-z1.tdiv n < -z2.tdiv n ∨ (-z1.tdiv n = -z2.tdiv n ∧ i1 < i2)) ↔
      ((z2 : ℚ) / n < (z1 : ℚ) / n ∨ ((z1 : ℚ) / n = (z2 : ℚ) / n ∧ i1 < i2))) ↔
    (z1 = z2 ∨ z1.tdiv n ≠ z2.tdiv n ∨ (i1 < i2 ↔ z2 < z1)) := by
  rcases eq_or_ne z1 z2 with rfl | hne
  · simp
  have hn : 0 < n := Nat.pos_of_ne_zero (fun h => hne (h0 h))
  have hn' : (0 : ℚ) < n := by exact_mod_cast hn
  have hlt : (z2 : ℚ) / n < (z1 : ℚ) / n ↔ z2 < z1 := by
    rw [div_lt_div_iff_of_pos_right hn']
    exact_mod_cast Iff.rfl
  have heq : (z1 : ℚ) / n ≠ (z2 : ℚ) / n := by
    intro h
    rw [div_left_inj' hn'.ne'] at h
    exact hne (by exact_mod_cast h)
  have hmono : ∀ {a b : ℤ}, a ≤ b → a.tdiv n ≤ b.tdiv n := fun h => Int.tdiv_le_tdiv (by omega) h
  rw [hlt]
  simp only [heq, hne, false_and, or_false, false_or]
  rcases eq_or_ne (z1.tdiv n) (z2.tdiv n) with ht | ht
  · simp [ht]
  · refine iff_of_true ?_ (.inl ht)
    rcases lt_or_gt_of_ne hne with h | h
    · have := hmono h.le
      omega
    · have := hmono h.le
      omega

/-- A matched item's score is packed. -/
theorem new_of_match {b : Build} {q : Query} {s : Bytes} (i : UInt32) (hq : TextsOk q) (hs : s ≠ [])
    (hmax : s.length ≤ kMatchMaxLen) (hm : q.match b s = true) : ∃ m, MatchedItem.new i (q.score b s) = some m := by
  have hne : ∀ t ∈ q.fuzzyTexts, t ≠ [] := fun t ht => (sublist_of_match hq hm t ht).1
  have h := score_of_match hq hs hmax hm
  split_ifs at h with hw
  · rw [h]
    exact ⟨_, rfl⟩
  · obtain ⟨h1, h2⟩ := Query.score_fin_bounds b hne h
    rw [h, MatchedItem.new, MatchedItem.hiHalf, if_pos ⟨by linarith, by linarith⟩]
    exact ⟨_, rfl⟩

/-- A truncated average never reaches the rank of an infinity. -/
theorem rank_gt_of_score {b : Build} {q : Query} {s : Bytes} (hne : ∀ t ∈ q.fuzzyTexts, t ≠ []) {v : ℚ}
    (hv : q.score b s = .fin v) : -2 ^ 31 < MatchedItem.rank (.fin v) := by
  obtain ⟨-, h2⟩ := Query.score_fin_bounds b hne hv
  have := MatchedItem.truncate_mono h2
  rw [show (204800 : ℚ) = ((204800 : ℤ) : ℚ) by norm_num, MatchedItem.truncate_intCast] at this
  rw [MatchedItem.rank]
  omega

theorem ranksByScore_iff_rank {b : Build} {q : Query} {s1 s2 : Bytes} {i1 i2 : UInt32}
    (h1 : ∃ m, MatchedItem.new i1 (q.score b s1) = some m) (h2 : ∃ m, MatchedItem.new i2 (q.score b s2) = some m) :
    RanksByScore b q s1 s2 i1 i2 ↔
      (MatchedItem.rank (q.score b s1) < MatchedItem.rank (q.score b s2) ∨
        (MatchedItem.rank (q.score b s1) = MatchedItem.rank (q.score b s2) ∧ i1 < i2) ↔
      Flt.lt (q.score b s2) (q.score b s1) = true ∨ (q.score b s1 = q.score b s2 ∧ i1 < i2)) := by
  obtain ⟨m1, hnew1⟩ := h1
  obtain ⟨m2, hnew2⟩ := h2
  rw [← MatchedItem.lt_iff hnew1 hnew2]
  constructor
  · rintro ⟨n1, n2, h1, h2, h⟩
    rw [hnew1, Option.some_inj] at h1
    rw [hnew2, Option.some_inj] at h2
    rw [h1, h2]
    exact h
  · exact fun h => ⟨m1, m2, hnew1, hnew2, h⟩

/-- **The packed order is the order of the scores unless two different averages truncate to one whole number** and the
indices go the other way. -/
theorem ranksByScore_iff (b : Build) (q : Query) (s1 s2 : Bytes) (i1 i2 : UInt32) (hq : TextsOk q)
    (hs1 : s1 ≠ []) (hs2 : s2 ≠ []) (hmax1 : s1.length ≤ kMatchMaxLen) (hmax2 : s2.length ≤ kMatchMaxLen)
    (hm1 : q.match b s1 = true) (hm2 : q.match b s2 = true) :
    RanksByScore b q s1 s2 i1 i2 ↔ Whole q s1 ∨ Whole q s2 ∨ bestSum q s1 = bestSum q s2 ∨
      (bestSum q s1).tdiv q.fuzzyTexts.length ≠ (bestSum q s2).tdiv q.fuzzyTexts.length ∨
      (i1 < i2 ↔ bestSum q s2 < bestSum q s1) := by
  have hne : ∀ t ∈ q.fuzzyTexts, t ≠ [] := fun t ht => (sublist_of_match hq hm1 t ht).1
  have hsc1 := score_of_match hq hs1 hmax1 hm1
  have hsc2 := score_of_match hq hs2 hmax2 hm2
  rw [ranksByScore_iff_rank (new_of_match i1 hq hs1 hmax1 hm1) (new_of_match i2 hq hs2 hmax2 hm2)]
  by_cases hw1 : Whole q s1
  · rw [if_pos hw1] at hsc1
    refine iff_of_true ?_ (.inl hw1)
    by_cases hw2 : Whole q s2
    · rw [if_pos hw2] at hsc2
      rw [hsc1, hsc2]
      simp [Flt.lt]
    · rw [if_neg hw2] at hsc2
      have h2 := rank_gt_of_score hne hsc2
      rw [hsc1, hsc2]
      exact iff_of_true (.inl h2) (.inl rfl)
  rw [if_neg hw1] at hsc1
  by_cases hw2 : Whole q s2
  · rw [if_pos hw2] at hsc2
    have h1 := rank_gt_of_score hne hsc1
    rw [hsc1, hsc2]
    refine iff_of_true (iff_of_false ?_ ?_) (.inr (.inl hw2))
    · rintro (h | ⟨h, -⟩)
      · exact absurd (h1.trans h) (lt_irrefl _)
      · exact absurd (h ▸ h1) (lt_irrefl _)
    · simp [Flt.lt]
  rw [if_neg hw2] at hsc2
  rw [hsc1, hsc2]
  simp only [MatchedItem.rank, truncate_div, Flt.lt_fin, decide_eq_true_eq, Flt.fin.injEq, hw1, hw2, false_or]
  refine average_order (fun h => ?_) i1 i2
  rw [bestSum, bestSum, List.length_eq_zero_iff.1 h]
  rfl

/-- The query `ab a` scores `axxb` higher than `axbxx`, by half a point that the packing drops. -/
theorem not_ranksByScore : ¬ ∀ (b : Build) (query s1 s2 : Bytes) (i1 i2 : UInt32), (0 : UInt8) ∉ query → i1 ≠ i2 →
    s1 ≠ [] → s2 ≠ [] → s1.length ≤ kMatchMaxLen → s2.length ≤ kMatchMaxLen →
    (Query.parse query).match b s1 = true → (Query.parse query).match b s2 = true →
    RanksByScore b (Query.parse query) s1 s2 i1 i2 := by
  intro h
  obtain ⟨m1, m2, h1, h2, hiff⟩ := h .sse2 [97, 98, 32, 97] [97, 120, 98, 120, 120] [97, 120, 120, 98] 0 1 (by decide)
    (by decide) (by decide) (by decide) (by decide) (by decide) (by decide +kernel) (by decide +kernel)
  have e1 : (Query.parse [97, 98, 32, 97]).score .sse2 [97, 120, 98, 120, 120] = .fin 176 := by decide +kernel
  have e2 : (Query.parse [97, 98, 32, 97]).score .sse2 [97, 120, 120, 98] = .fin (353 / 2) := by decide +kernel
  rw [e1] at h1 hiff
  rw [e2] at h2 hiff
  rw [MatchedItem.lt_iff h1 h2] at hiff
  revert hiff
  decide +kernel

/-- The query `ab` on `ab` and `xab`: the first item is all of the term. -/
theorem ranksByScore_ab : RanksByScore .sse2 (Query.parse [97, 98]) [97, 98] [120, 97, 98] 7 2 :=
  (ranksByScore_iff .sse2 _ _ _ 7 2 (textsOk_parse (by decide)) (by decide) (by decide) (by decide) (by decide)
    (by decide +kernel) (by decide +kernel)).2 (.inl ⟨[97, 98], by decide +kernel, rfl⟩)

end Fzx
