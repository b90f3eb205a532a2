import Mathlib
/-!
# Subseq — greedy subsequence search

`embeds r xs ys` looks for each element of `xs` in turn, taking the first element of `ys` it is related to.  It finds
a subsequence exactly when there is one (`embeds_iff`); related by equal images, that is a sublist of the images
(`embeds_eq_iff`).
-/
namespace Lib

variable {α β : Type}

/-- Greedy search for the elements of a list, in order, among those of another. -/
def embeds (r : α → β → Bool) : List α → List β → Bool
  | [], _ => true
  | _ :: _, [] => false
  | x :: xs, y :: ys => if r x y then embeds r xs ys else embeds r (x :: xs) ys

@[simp] theorem embeds_nil (r : α → β → Bool) (ys : List β) : embeds r [] ys = true := by cases ys <;> rfl

@[simp] theorem embeds_cons_nil (r : α → β → Bool) (x : α) (xs : List α) : embeds r (x :: xs) [] = false := rfl

/-- Elements the search skips. -/
theorem embeds_append_of_forall_not (r : α → β → Bool) (x : α) (xs : List α) : ∀ (pre ys : List β),
    (∀ y ∈ pre, r x y = false) → embeds r (x :: xs) (pre ++ ys) = embeds r (x :: xs) ys
  | [], _, _ => rfl
  | p :: pre, ys, h => by
    rw [List.cons_append, embeds, h p (by simp)]
    simpa using embeds_append_of_forall_not r x xs pre ys (fun y hy => h y (by simp [hy]))

/-- **The search stops at the first related element.** -/
theorem embeds_cons_of_first (r : α → β → Bool) (x : α) (xs : List α) (pre : List β) (y : β) (ys : List β)
    (hpre : ∀ z ∈ pre, r x z = false) (hy : r x y = true) :
    embeds r (x :: xs) (pre ++ y :: ys) = embeds r xs ys := by
  rw [embeds_append_of_forall_not r x xs pre _ hpre, embeds, if_pos hy]

theorem sublistForall₂_tail {r : α → β → Prop} {x : α} {xs : List α} :
    ∀ {ys : List β}, List.SublistForall₂ r (x :: xs) ys → List.SublistForall₂ r xs ys
  | _, .cons _ h => .cons_right h
  | _, .cons_right h => .cons_right (sublistForall₂_tail h)

/-- **The greedy search finds a subsequence exactly when there is one.** -/
theorem embeds_iff (r : α → β → Bool) : ∀ (xs : List α) (ys : List β),
    embeds r xs ys = true ↔ List.SublistForall₂ (fun x y => r x y = true) xs ys
  | [], ys => by simp [List.SublistForall₂.nil]
  | x :: xs, [] => by
    simp only [embeds_cons_nil, Bool.false_eq_true, false_iff]
    rintro ⟨⟩
  | x :: xs, y :: ys => by
    rw [embeds]
    by_cases h : r x y = true
    · rw [if_pos h, embeds_iff r xs ys]
      constructor
      · exact .cons h
      · intro hs
        cases hs with
        | cons _ hs => exact hs
        | cons_right hs => exact sublistForall₂_tail hs
    · rw [if_neg h, embeds_iff r (x :: xs) ys]
      constructor
      · exact .cons_right
      · intro hs
        cases hs with
        | cons h' _ => exact absurd h' h
        | cons_right hs => exact hs

/-- **Elements related by equal images**: the search is for a sublist of the images. -/
theorem embeds_eq_iff {γ : Type} [DecidableEq γ] (f : α → γ) (g : β → γ) (xs : List α) (ys : List β) :
    embeds (fun x y => decide (f x = g y)) xs ys = true ↔ (xs.map f).Sublist (ys.map g) := by
  rw [embeds_iff]
  induction ys generalizing xs with
  | nil =>
    cases xs with
    | nil => simp [List.SublistForall₂.nil]
    | cons x xs =>
      simp only [List.map_cons, List.map_nil, List.sublist_nil, reduceCtorEq, iff_false]
      rintro ⟨⟩
  | cons y ys ih =>
    cases xs with
    | nil => simp [List.SublistForall₂.nil]
    | cons x xs =>
      rw [List.map_cons, List.map_cons]
      constructor
      · intro h
        cases h with
        | cons hxy h => rw [of_decide_eq_true hxy]; exact ((ih xs).1 h).cons_cons _
        | cons_right h => exact ((ih (x :: xs)).1 h).cons _
      · intro h
        rcases List.sublist_cons_iff.1 h with h | ⟨r, hr, h⟩
        · exact .cons_right ((ih (x :: xs)).2 (by simpa using h))
        · obtain ⟨hxy, rfl⟩ := List.cons.inj hr
          exact .cons (decide_eq_true hxy) ((ih xs).2 h)

/-- A relation that is weaker on the elements looked for finds whatever the stronger one finds. -/
theorem embeds_mono {r s : α → β → Bool} : ∀ {xs : List α} {ys : List β},
    (∀ x ∈ xs, ∀ y, r x y = true → s x y = true) → embeds r xs ys = true → embeds s xs ys = true := by
  intro xs ys h he
  rw [embeds_iff] at he ⊢
  induction he with
  | nil => exact .nil
  | cons hxy _ ih => exact .cons (h _ (by simp) _ hxy) (ih (fun x hx => h x (by simp [hx])))
  | cons_right _ ih => exact .cons_right (ih h)

theorem length_le_of_embeds {r : α → β → Bool} {xs : List α} {ys : List β} (h : embeds r xs ys = true) :
    xs.length ≤ ys.length := by
  rw [embeds_iff] at h
  induction h with
  | nil => simp
  | cons _ _ ih => simpa using ih
  | cons_right _ ih => exact ih.trans (by simp)

/-- A search in a list as long as what is looked for relates them element by element. -/
theorem forall₂_of_embeds {r : α → β → Bool} {xs : List α} {ys : List β} (h : embeds r xs ys = true)
    (hlen : xs.length = ys.length) : List.Forall₂ (fun x y => r x y = true) xs ys := by
  obtain ⟨l, hl, hs⟩ := List.sublistForall₂_iff.1 ((embeds_iff r xs ys).1 h)
  rwa [hs.eq_of_length (hl.length_eq.symm.trans hlen)] at hl

/-- A list followed by copies of an element its last one differs from gains nothing from them. -/
theorem sublist_append_replicate_iff {xs ys : List α} {z : α} (hz : xs.getLast? ≠ some z) (k : ℕ) :
    xs.Sublist (ys ++ List.replicate k z) ↔ xs.Sublist ys := by
  refine ⟨fun h => ?_, fun h => h.trans (List.sublist_append_left _ _)⟩
  obtain ⟨a, b, rfl, ha, hb⟩ := List.sublist_append_iff.1 h
  obtain ⟨m, -, rfl⟩ := List.sublist_replicate_iff.1 hb
  cases m with
  | zero => simpa using ha
  | succ m => exact absurd (by simp [List.getLast?_append, List.getLast?_replicate]) hz

end Lib
