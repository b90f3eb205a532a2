import Mathlib
/-!
# Words — the maximal runs between separators

`IsWord sep s t` says that `t` is a maximal run without `sep` inside `s`; `words sep [] s` lists the runs from left to
right (`mem_words`).  The accumulator is the run being read.
-/
namespace Lib

variable {α : Type}

/-- A maximal non-empty run of `s` without the separator. -/
def IsWord (sep : α) (s t : List α) : Prop :=
  t ≠ [] ∧ sep ∉ t ∧ ∃ pre post, s = pre ++ t ++ post ∧ (pre = [] ∨ pre.getLast? = some sep) ∧
    (post = [] ∨ post.head? = some sep)

def words [DecidableEq α] (sep : α) : List α → List α → List (List α)
  | cur, [] => if cur = [] then [] else [cur]
  | cur, c :: s =>
    if c = sep then (if cur = [] then words sep [] s else cur :: words sep [] s) else words sep (cur ++ [c]) s

theorem isWord_of_not_mem {sep : α} {s t : List α} (hs : sep ∉ s) : IsWord sep s t ↔ t = s ∧ s ≠ [] := by
  constructor
  · rintro ⟨hne, -, pre, post, rfl, hpre, hpost⟩
    have h1 : pre = [] := hpre.resolve_right (fun h => hs (by simp [List.mem_of_getLast? h]))
    have h2 : post = [] := hpost.resolve_right (fun h => hs (by simp [List.mem_of_head? h]))
    simp [h1, h2, hne]
  · rintro ⟨rfl, hne⟩
    exact ⟨hne, hs, [], [], by simp, .inl rfl, .inl rfl⟩

theorem getLast?_append_cons_sep {sep : α} (cur : List α) {pre : List α} (h : pre = [] ∨ pre.getLast? = some sep) :
    (cur ++ sep :: pre).getLast? = some sep := by
  rw [List.getLast?_append_cons]
  cases pre with
  | nil => rfl
  | cons d pre => rw [List.getLast?_cons_cons]; exact h.resolve_left (List.cons_ne_nil _ _)

/-- **The words of a string cut at a separator** are those of its two sides. -/
theorem isWord_append_sep {sep : α} {cur s t : List α} (hcur : sep ∉ cur) :
    IsWord sep (cur ++ sep :: s) t ↔ (t = cur ∧ cur ≠ []) ∨ IsWord sep s t := by
  constructor
  · rintro ⟨hne, ht, pre, post, he, hpre, hpost⟩
    rw [List.append_assoc] at he
    rcases List.append_eq_append_iff.1 he with ⟨l, rfl, hl⟩ | ⟨l, rfl, hl⟩
    · -- the word starts right of `cur`
      rcases l with _ | ⟨c, l⟩
      · rw [List.nil_append] at hl
        cases t with
        | nil => exact absurd rfl hne
        | cons c t => exact absurd (List.mem_cons_self) ((List.cons_eq_cons.1 hl).1 ▸ ht)
      · obtain ⟨rfl, hs⟩ := List.cons_eq_cons.1 hl
        refine .inr ⟨hne, ht, l, post, hs.trans (List.append_assoc l t post).symm, ?_, hpost⟩
        rcases hpre with h | h
        · simp at h
        · rw [List.getLast?_append_cons] at h
          cases l with
          | nil => exact .inl rfl
          | cons d l => exact .inr (by rwa [List.getLast?_cons_cons] at h)
    · -- it starts inside `cur`, hence at its first byte, and ends at its last
      obtain rfl : pre = [] := hpre.resolve_right (fun h => hcur (by simp [List.mem_of_getLast? h]))
      rw [List.nil_append] at hcur ⊢
      rcases List.append_eq_append_iff.1 hl with ⟨k, rfl, hk⟩ | ⟨k, rfl, hk⟩
      · cases k with
        | nil => exact .inl ⟨by simp, by simpa using hne⟩
        | cons d k =>
          subst hk
          have hd : d = sep := by simpa using hpost
          exact absurd (by simp [hd]) hcur
      · cases k with
        | nil => exact .inl ⟨by simp, by simpa using hne⟩
        | cons d k =>
          have hd : sep = d := (List.cons_eq_cons.1 hk).1
          exact absurd (by simp [hd]) ht
  · rintro (⟨rfl, hne⟩ | ⟨hne, ht, pre, post, rfl, hpre, hpost⟩)
    · exact ⟨hne, hcur, [], sep :: s, by simp, .inl rfl, .inr rfl⟩
    · exact ⟨hne, ht, cur ++ sep :: pre, post, by simp, .inr (getLast?_append_cons_sep cur hpre), hpost⟩

theorem mem_words [DecidableEq α] {sep : α} : ∀ {s cur t : List α}, sep ∉ cur →
    (t ∈ words sep cur s ↔ IsWord sep (cur ++ s) t)
  | [], cur, t, hcur => by
    rw [List.append_nil, isWord_of_not_mem hcur, words]
    split <;> simp_all
  | c :: s, cur, t, hcur => by
    rw [words]
    by_cases hc : c = sep
    · subst hc
      rw [if_pos rfl, isWord_append_sep hcur]
      have ih := @mem_words _ c s [] t (List.not_mem_nil)
      rw [List.nil_append] at ih
      by_cases h : cur = []
      · rw [if_pos h, ih]
        simp [h]
      · rw [if_neg h, List.mem_cons, ih]
        simp [h]
    · rw [if_neg hc, mem_words (by simp [hcur, Ne.symm hc]), List.append_assoc]
      rfl

theorem words_append_of_not_mem [DecidableEq α] {sep : α} : ∀ {t cur : List α} (s : List α), sep ∉ t →
    words sep cur (t ++ s) = words sep (cur ++ t) s
  | [], cur, s, _ => by rw [List.nil_append, List.append_nil]
  | c :: t, cur, s, ht => by
    rw [List.mem_cons, not_or] at ht
    rw [List.cons_append, words, if_neg (Ne.symm ht.1), words_append_of_not_mem s ht.2, List.append_assoc]
    rfl

/-- **Words joined by a separator are read back.** -/
theorem words_intercalate [DecidableEq α] {sep : α} : ∀ {ws : List (List α)}, (∀ t ∈ ws, t ≠ [] ∧ sep ∉ t) →
    words sep [] ([sep].intercalate ws) = ws
  | [], _ => rfl
  | [t], h => by
    obtain ⟨hne, hsep⟩ := h t (List.mem_singleton_self t)
    have hw : words sep [] (t ++ []) = words sep ([] ++ t) [] := words_append_of_not_mem [] hsep
    rw [List.append_nil, List.nil_append, words, if_neg hne] at hw
    simpa [List.intercalate] using hw
  | t :: u :: ws, h => by
    obtain ⟨hne, hsep⟩ := h t List.mem_cons_self
    have ih : words sep [] ([sep].intercalate (u :: ws)) = u :: ws :=
      words_intercalate (fun v hv => h v (List.mem_cons_of_mem t hv))
    have hcons : [sep].intercalate (t :: u :: ws) = t ++ sep :: [sep].intercalate (u :: ws) := by
      simp [List.intercalate, List.intersperse]
    rw [hcons, words_append_of_not_mem _ hsep, List.nil_append, words, if_pos rfl, if_neg hne, ih]

end Lib
