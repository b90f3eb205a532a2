import Fzx.Lib.Words
import Fzx.Query
/-!
# QueryMatch — the language of queries

A query's terms are its maximal runs of non-space bytes (`IsWord`), and `TermHolds` says what each asks of an item.
`parse` reads exactly the terms (`parse_eq_foldl`), each adds its item (`parseSubstr_match`), and the parsed query
matches what every term of the string allows (`parse_match_iff`).
-/
namespace Fzx

open Lib

/-! ## What a term means -/

/-- A term, after its negation, that asks for something. -/
def Imposes (r : Bytes) : Prop :=
  r ≠ [] ∧ r ≠ ['\''.toUInt8] ∧ r ≠ ['^'.toUInt8] ∧ r ≠ ['$'.toUInt8] ∧ r ≠ ['^'.toUInt8, '$'.toUInt8]

/-- What the sigils of a term ask of an item, ignoring case. -/
def Condition (r item : Bytes) : Prop :=
  if r.head? = some '\''.toUInt8 then lower r.tail <:+: lower item
  else if r.head? = some '^'.toUInt8 ∧ r.getLast? = some '$'.toUInt8 then lower r.tail.dropLast = lower item
  else if r.head? = some '^'.toUInt8 then lower r.tail <+: lower item
  else if r.getLast? = some '$'.toUInt8 then lower r.dropLast <:+ lower item
  else (lower r).Sublist (lower item)

/-- **What a term asks of an item**: after one leading `'!'`, the opposite. -/
def TermHolds (t item : Bytes) : Prop :=
  if t.head? = some '!'.toUInt8 then Imposes t.tail → ¬ Condition t.tail item else Imposes t → Condition t item

/-! ## The terms -/

namespace Query

/-- The term being read when the loop stands at byte `i`. -/
def current (s : Bytes) (i : ℕ) : Option ℕ → Bytes
  | none => []
  | some pos => (s.drop pos).take (i - pos)

theorem current_succ {s : Bytes} {i pos : ℕ} (hpos : pos < i) (hi : i < s.length) :
    current s (i + 1) (some pos) = current s i (some pos) ++ [s.getD i 0] := by
  have hlt : i - pos < (s.drop pos).length := by rw [List.length_drop]; omega
  rw [current, current, show i + 1 - pos = i - pos + 1 by omega, List.take_add_one, List.getElem?_eq_getElem hlt,
    List.getElem_drop, List.getD_eq_getElem _ _ hi]
  simp only [show pos + (i - pos) = i by omega, Option.toList_some]

theorem current_ne_nil {s : Bytes} {i pos : ℕ} (hpos : pos < i) (hi : i ≤ s.length) : current s i (some pos) ≠ [] := by
  intro h
  have := congrArg List.length h
  rw [current, List.length_take, List.length_drop, List.length_nil] at this
  omega

/-- The loop stands at byte `i`: what is left to read is the current term and the words after it. -/
structure ParseInv (s : Bytes) (i : ℕ) (st : ParseState) : Prop where
  rest : (words kSeparator (current s i st.pos) (s.drop i)).foldl parseSubstr st.q
    = (words kSeparator [] s).foldl parseSubstr {}
  pos_lt : ∀ pos, st.pos = some pos → pos < i

theorem ParseInv.step {s : Bytes} {i : ℕ} (hi : i < s.length) {st : ParseState} (h : ParseInv s i st) :
    ParseInv s (i + 1) (parseByte s i st) := by
  obtain ⟨q, pos⟩ := st
  obtain ⟨hrest, hpos⟩ := h
  dsimp only at hrest hpos
  have hdrop : s.drop i = s.getD i 0 :: s.drop (i + 1) := by
    rw [List.getD_eq_getElem _ _ hi, List.drop_eq_getElem_cons hi]
  rw [hdrop, words] at hrest
  cases pos with
  | none =>
    by_cases hc : s.getD i 0 = kSeparator
    · rw [if_pos hc, current, if_pos rfl] at hrest
      rw [parseByte]
      simp only [hc, ne_eq, not_true_eq_false, if_false]
      exact ⟨hrest, fun _ h => by cases h⟩
    · rw [if_neg hc] at hrest
      rw [parseByte]
      simp only [ne_eq, hc, not_false_eq_true, if_true]
      refine ⟨?_, fun p hp => by cases hp; exact Nat.lt_succ_self i⟩
      have hcur : current s (i + 1) (some i) = [s.getD i 0] := by
        rw [current, hdrop, show i + 1 - i = 1 by omega, List.take_succ_cons, List.take_zero]
      rw [hcur]
      exact hrest
  | some pos =>
    have hlt := hpos pos rfl
    by_cases hc : s.getD i 0 = kSeparator
    · rw [if_pos hc, if_neg (current_ne_nil hlt hi.le)] at hrest
      rw [parseByte]
      simp only [hc, if_true]
      exact ⟨hrest, fun _ h => by cases h⟩
    · rw [if_neg hc] at hrest
      rw [parseByte]
      simp only [hc, if_false]
      refine ⟨?_, fun p hp => by cases hp; omega⟩
      rw [current_succ hlt hi]
      exact hrest

/-- **`parse` reads the words of the string**, from left to right. -/
theorem parse_eq_foldl (s : Bytes) : parse s = (words kSeparator [] s).foldl parseSubstr {} := by
  rw [parse]
  split
  · rename_i h
    rw [List.isEmpty_iff.1 h]
    rfl
  have inv := forRange_inv (ParseInv s) (parseByte s) s.length (s := { q := {}, pos := none })
    ⟨rfl, fun _ h => by cases h⟩ (fun i hi st h => h.step hi)
  obtain ⟨hrest, hpos⟩ := inv
  rw [List.drop_length, words] at hrest
  generalize forRange s.length (parseByte s) { q := {}, pos := none } = st at *
  obtain ⟨q, pos⟩ := st
  cases pos with
  | none => exact hrest
  | some pos =>
    rw [if_neg (current_ne_nil (hpos pos rfl) le_rfl)] at hrest
    rw [← hrest]
    have hcur : current s s.length (some pos) = s.drop pos := by
      rw [current, List.take_of_length_le (by rw [List.length_drop])]
    simp only [hcur, List.foldl_cons, List.foldl_nil]

/-! ## What an item adds -/

theorem match_add (b : Build) (q : Query) (text s : Bytes) (type : MatchType) (negated : Bool) :
    (q.add text type negated).match b s = true ↔
      q.match b s = true ∧ (if negated = true then ¬ Item.matches b ⟨type, negated, text⟩ s = true
        else Item.matches b ⟨type, negated, text⟩ s = true) := by
  unfold «match» add
  cases negated <;> simp

theorem eq_singleton_of_head {r : Bytes} {c : UInt8} (h : r.head? = some c) (hlen : ¬ r.length > 1) : r = [c] := by
  match r, h, hlen with
  | [d], h, _ => rw [List.head?_cons, Option.some_inj] at h; rw [h]
  | _ :: _ :: _, _, hlen => simp at hlen

theorem eq_singleton_of_getLast {r : Bytes} {c : UInt8} (h : r.getLast? = some c) (hlen : ¬ r.length > 1) : r = [c] := by
  match r, h, hlen with
  | [d], h, _ => rw [List.getLast?_singleton, Option.some_inj] at h; rw [h]
  | _ :: _ :: _, _, hlen => simp at hlen

theorem eq_pair_of_head_getLast {r : Bytes} {c d : UInt8} (hc : r.head? = some c) (hd : r.getLast? = some d) (hcd : c ≠ d)
    (hlen : ¬ r.length > 2) : r = [c, d] := by
  match r, hc, hd, hlen with
  | [x], hc, hd, _ =>
    rw [List.head?_cons, Option.some_inj] at hc
    rw [List.getLast?_singleton, Option.some_inj] at hd
    exact absurd (hc.symm.trans hd) hcd
  | [x, y], hc, hd, _ =>
    rw [List.head?_cons, Option.some_inj] at hc
    have hy : y = d := by simpa using hd
    rw [hc, hy]
  | _ :: _ :: _ :: _, _, _, hlen => simp at hlen

theorem add_match_iff (q : Query) {text r item : Bytes} {type : MatchType} (negated : Bool) (himp : Imposes r)
    (hcond : Item.matches .sse2 ⟨type, negated, text⟩ item = true ↔ Condition r item) :
    (q.add text type negated).match .sse2 item = true ↔ q.match .sse2 item = true ∧
      (Imposes r → if negated = true then ¬ Condition r item else Condition r item) := by
  rw [match_add, hcond]
  exact and_congr_right (fun _ => ⟨fun h _ => h, fun h => h himp⟩)

theorem skip_match_iff (q : Query) {r item : Bytes} (P : Prop) (himp : ¬ Imposes r) :
    q.match .sse2 item = true ↔ q.match .sse2 item = true ∧ (Imposes r → P) :=
  ⟨fun h => ⟨h, fun hi => absurd hi himp⟩, fun h => h.1⟩

/-- **What the sigils of a term add to a query's filter.** -/
theorem parseSigils_match (q : Query) (r item : Bytes) (negated : Bool) (hne : r ≠ []) (hnul : (0 : UInt8) ∉ r) :
    (q.parseSigils r negated).match .sse2 item = true ↔
      q.match .sse2 item = true ∧
        (Imposes r → if negated = true then ¬ Condition r item else Condition r item) := by
  have htail : (r.drop 1).take (r.length - 1) = r.tail := by
    rw [List.drop_one, List.take_of_length_le (by rw [List.length_tail])]
  rw [parseSigils]
  by_cases hsub : r.head? = some '\''.toUInt8
  · rw [if_pos hsub]
    by_cases hlen : r.length > 1
    · rw [if_pos hlen, htail]
      refine add_match_iff q negated ⟨hne, ?_, ?_, ?_, ?_⟩ ?_
      iterate 3 exact fun h => by simp [h] at hlen
      · exact fun h => by rw [h] at hsub; exact absurd hsub (by decide)
      · rw [Item.matches, matchSubstr_iff, Condition, if_pos hsub]
    · rw [if_neg hlen]
      exact skip_match_iff q _ (fun h => h.2.1 (eq_singleton_of_head hsub hlen))
  rw [if_neg hsub]
  by_cases hbegin : r.head? = some '^'.toUInt8
  · by_cases hend : r.getLast? = some '$'.toUInt8
    · rw [if_pos ⟨hbegin, hend⟩]
      by_cases hlen : r.length > 2
      · have htext : (r.drop 1).take (r.length - 2) = r.tail.dropLast := by
          rw [List.drop_one, List.dropLast_eq_take, List.length_tail, Nat.sub_sub]
        rw [if_pos hlen, htext]
        refine add_match_iff q negated ⟨hne, ?_, ?_, ?_, ?_⟩ ?_
        iterate 4 exact fun h => by simp [h] at hlen
        rw [Item.matches, matchExact_iff, Condition, if_neg hsub, if_pos ⟨hbegin, hend⟩]
      · rw [if_neg hlen]
        exact skip_match_iff q _ (fun h => h.2.2.2.2 (eq_pair_of_head_getLast hbegin hend (by decide) hlen))
    · rw [if_neg (fun h => hend h.2), if_pos hbegin]
      by_cases hlen : r.length > 1
      · rw [if_pos hlen, htail]
        refine add_match_iff q negated ⟨hne, ?_, ?_, ?_, ?_⟩ ?_
        iterate 3 exact fun h => by simp [h] at hlen
        · exact fun h => hend (by rw [h]; rfl)
        · rw [Item.matches, matchBegin_iff, Condition, if_neg hsub, if_neg (fun h => hend h.2), if_pos hbegin]
      · rw [if_neg hlen]
        exact skip_match_iff q _ (fun h => h.2.2.1 (eq_singleton_of_head hbegin hlen))
  rw [if_neg (fun h => hbegin h.1), if_neg hbegin]
  by_cases hend : r.getLast? = some '$'.toUInt8
  · rw [if_pos hend]
    by_cases hlen : r.length > 1
    · rw [if_pos hlen, ← List.dropLast_eq_take]
      refine add_match_iff q negated ⟨hne, ?_, ?_, ?_, ?_⟩ ?_
      iterate 3 exact fun h => by simp [h] at hlen
      · exact fun h => hbegin (by rw [h]; rfl)
      · rw [Item.matches, matchEnd_iff, Condition, if_neg hsub, if_neg (fun h => hbegin h.1), if_neg hbegin, if_pos hend]
    · rw [if_neg hlen]
      exact skip_match_iff q _ (fun h => h.2.2.2.1 (eq_singleton_of_getLast hend hlen))
  · rw [if_neg hend]
    refine add_match_iff q negated ⟨hne, ?_, ?_, ?_, ?_⟩ ?_
    · exact fun h => hsub (by rw [h]; rfl)
    · exact fun h => hbegin (by rw [h]; rfl)
    · exact fun h => hend (by rw [h]; rfl)
    · exact fun h => hbegin (by rw [h]; rfl)
    · have hlast : r.getLast? ≠ some 0 := fun h => hnul (List.mem_of_getLast? h)
      rw [Item.matches, matchFuzzy, matchFuzzySSE_iff_of_getLast hlast, Condition, if_neg hsub,
        if_neg (fun h => hbegin h.1), if_neg hbegin, if_neg hend]

/-- **What a term adds to a query's filter.** -/
theorem parseSubstr_match (q : Query) (t item : Bytes) (hne : t ≠ []) (hnul : (0 : UInt8) ∉ t) :
    (q.parseSubstr t).match .sse2 item = true ↔ q.match .sse2 item = true ∧ TermHolds t item := by
  rw [parseSubstr, TermHolds]
  by_cases hneg : t.head? = some '!'.toUInt8
  · simp only [hneg, decide_true, if_true, List.drop_one]
    by_cases hemp : t.tail = []
    · rw [if_pos (by rw [hemp]; rfl)]
      exact skip_match_iff q _ (fun h => h.1 hemp)
    · rw [if_neg (by simpa using hemp)]
      have h := parseSigils_match q t.tail item true hemp (fun h => hnul (List.mem_of_mem_tail h))
      simpa only [if_true] using h
  · simp only [hneg, decide_false, Bool.false_eq_true, if_false]
    have h := parseSigils_match q t item false hne hnul
    simpa only [Bool.false_eq_true, if_false] using h

theorem foldl_parseSubstr_match (item : Bytes) : ∀ (ts : List Bytes) (q : Query),
    (∀ t ∈ ts, t ≠ [] ∧ (0 : UInt8) ∉ t) →
    ((ts.foldl parseSubstr q).match .sse2 item = true ↔ q.match .sse2 item = true ∧ ∀ t ∈ ts, TermHolds t item)
  | [], q, _ => by simp
  | t :: ts, q, h => by
    rw [List.foldl_cons, foldl_parseSubstr_match item ts _ (fun u hu => h u (List.mem_cons_of_mem _ hu)),
      parseSubstr_match q t item (h t List.mem_cons_self).1 (h t List.mem_cons_self).2, and_assoc, List.forall_mem_cons]

theorem mem_terms {s t : Bytes} : t ∈ words kSeparator [] s ↔ IsWord kSeparator s t := by
  rw [mem_words List.not_mem_nil, List.nil_append]

end Query

theorem not_mem_of_isWord {query t : Bytes} (hnul : (0 : UInt8) ∉ query) (h : IsWord Query.kSeparator query t) :
    (0 : UInt8) ∉ t := by
  obtain ⟨-, -, pre, post, rfl, -⟩ := h
  exact fun h => hnul (by simp [h])

/-- **A parsed query matches an item exactly when every term of the string allows it.** -/
theorem parse_match_iff (query item : Bytes) (hnul : (0 : UInt8) ∉ query) :
    (Query.parse query).match .sse2 item = true ↔ ∀ t, IsWord Query.kSeparator query t → TermHolds t item := by
  rw [Query.parse_eq_foldl, Query.foldl_parseSubstr_match item]
  · simp only [Query.mem_terms]
    exact and_iff_right rfl
  · intro t ht
    have hw := Query.mem_terms.1 ht
    exact ⟨hw.1, not_mem_of_isWord hnul hw⟩

/-- The terms `^a` and `!'b`, which the item `ax` satisfies. -/
theorem terms_hold_ax : (Query.parse [94, 97, 32, 33, 39, 98]).match .sse2 [97, 120] = true ∧
    ∀ t, IsWord Query.kSeparator [94, 97, 32, 33, 39, 98] t → TermHolds t [97, 120] := by
  have hmatch : (Query.parse [94, 97, 32, 33, 39, 98]).match .sse2 [97, 120] = true := by decide +kernel
  exact ⟨hmatch, (parse_match_iff [94, 97, 32, 33, 39, 98] [97, 120] (by decide)).1 hmatch⟩

end Fzx
