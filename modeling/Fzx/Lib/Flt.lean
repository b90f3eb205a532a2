import Mathlib
/-!
# Flt — floats with exact finite part

A float as a proof reads it: a finite value of an ordered type, one of the two infinities, or a NaN.  Addition and
comparison are IEEE's on these, with no rounding; the three maxima are the ones code calls: the standard library's,
SSE's and NEON's.  `ofBot` embeds `WithBot`, where sums and maxima are Mathlib's, and commutes with all of them.
-/
namespace Lib

/-- A float whose finite values are exact. -/
inductive Flt (α : Type) where
  | nan
  | negInf
  | fin (v : α)
  | posInf
deriving DecidableEq, Repr

namespace Flt

variable {α : Type}

/-- IEEE addition: infinities of opposite sign make a NaN. -/
def add [Add α] : Flt α → Flt α → Flt α
  | .nan, _ | _, .nan => .nan
  | .negInf, .posInf | .posInf, .negInf => .nan
  | .negInf, _ | _, .negInf => .negInf
  | .posInf, _ | _, .posInf => .posInf
  | .fin a, .fin b => .fin (a + b)

instance [Add α] : Add (Flt α) := ⟨add⟩

/-- IEEE `a < b`: false as soon as one side is a NaN. -/
def lt [LT α] [DecidableLT α] : Flt α → Flt α → Bool
  | .nan, _ | _, .nan => false
  | .negInf, .negInf => false
  | .negInf, _ => true
  | _, .negInf => false
  | .fin a, .fin b => decide (a < b)
  | .fin _, .posInf => true
  | .posInf, _ => false

/-- `std::max`: the first argument unless it is less than the second. -/
def stdMax [LT α] [DecidableLT α] (a b : Flt α) : Flt α := if lt a b then b else a

/-- `MAXPS`: the first argument if it is greater, else the second. -/
def ssMax [LT α] [DecidableLT α] (a b : Flt α) : Flt α := if lt b a then a else b

/-- `FMAX`: the greater argument, a NaN if one of them is. -/
def neonMax [LT α] [DecidableLT α] : Flt α → Flt α → Flt α
  | .nan, _ | _, .nan => .nan
  | a, b => if lt a b then b else a

/-- Division by a positive count: the infinities stay where they are. -/
def divNat (x : Flt ℤ) (k : ℕ) : Flt ℚ :=
  match x with
  | .nan => .nan
  | .negInf => .negInf
  | .fin v => .fin ((v : ℚ) / k)
  | .posInf => .posInf

@[simp] theorem fin_add_fin [Add α] (a b : α) : (fin a : Flt α) + fin b = fin (a + b) := rfl
@[simp] theorem negInf_add_fin [Add α] (b : α) : (negInf : Flt α) + fin b = negInf := rfl
@[simp] theorem fin_add_negInf [Add α] (a : α) : (fin a : Flt α) + negInf = negInf := rfl
@[simp] theorem negInf_add_negInf [Add α] : (negInf : Flt α) + negInf = negInf := rfl
@[simp] theorem posInf_add_fin [Add α] (b : α) : (posInf : Flt α) + fin b = posInf := rfl
@[simp] theorem fin_add_posInf [Add α] (a : α) : (fin a : Flt α) + posInf = posInf := rfl
@[simp] theorem posInf_add_posInf [Add α] : (posInf : Flt α) + posInf = posInf := rfl
@[simp] theorem posInf_add_negInf [Add α] : (posInf : Flt α) + negInf = nan := rfl
@[simp] theorem negInf_add_posInf [Add α] : (negInf : Flt α) + posInf = nan := rfl
@[simp] theorem nan_add [Add α] (x : Flt α) : nan + x = nan := rfl
@[simp] theorem add_nan [Add α] (x : Flt α) : x + nan = nan := by cases x <;> rfl

theorem lt_fin [LT α] [DecidableLT α] (a b : α) : lt (fin a) (fin b) = decide (a < b) := rfl

/-! ## Sums

Addition is associative, a NaN absorbing everything, so a sum does not depend on the order it is taken in. -/

instance [Zero α] : Zero (Flt α) := ⟨fin 0⟩

instance [AddCommMonoid α] : AddCommMonoid (Flt α) where
  add_assoc x y z := by
    cases x <;> cases y <;> cases z <;> first | rfl | exact congrArg fin (add_assoc _ _ _)
  zero_add x := by cases x <;> first | rfl | exact congrArg fin (zero_add _)
  add_zero x := by cases x <;> first | rfl | exact congrArg fin (add_zero _)
  add_comm x y := by cases x <;> cases y <;> first | rfl | exact congrArg fin (add_comm _ _)
  nsmul := nsmulRec

theorem zero_eq_fin [Zero α] : (0 : Flt α) = fin 0 := rfl

/-- The finite part, 0 for the rest. -/
def value [Zero α] : Flt α → α
  | .fin v => v
  | _ => 0

/-- **A sum without NaNs** is decided by the infinities in it. -/
theorem sum_eq [AddCommMonoid α] [DecidableEq α] : ∀ {xs : List (Flt α)}, nan ∉ xs → xs.sum =
    if posInf ∈ xs then (if negInf ∈ xs then nan else posInf)
    else if negInf ∈ xs then negInf else fin (xs.map value).sum
  | [], _ => rfl
  | x :: xs, h => by
    rw [List.mem_cons, not_or] at h
    rw [List.sum_cons, sum_eq h.2]
    cases x with
    | nan => exact absurd rfl h.1
    | negInf => by_cases hp : posInf ∈ xs <;> by_cases hn : negInf ∈ xs <;> simp [hp, hn]
    | fin v => by_cases hp : posInf ∈ xs <;> by_cases hn : negInf ∈ xs <;> simp [hp, hn, value]
    | posInf => by_cases hp : posInf ∈ xs <;> by_cases hn : negInf ∈ xs <;> simp [hp, hn]

/-! ## The values below `+∞` -/

/-- A finite value or `-∞`, as a float. -/
def ofBot (x : WithBot α) : Flt α :=
  match x with
  | none => .negInf
  | some v => .fin v

@[simp] theorem ofBot_bot : ofBot (⊥ : WithBot α) = negInf := rfl
@[simp] theorem ofBot_coe (v : α) : ofBot (v : WithBot α) = fin v := rfl

theorem ofBot_injective : Function.Injective (ofBot : WithBot α → Flt α)
  | none, none, _ => rfl
  | some a, some b, h => by cases h; rfl
  | none, some _, h => by cases h
  | some _, none, h => by cases h

@[simp] theorem ofBot_inj {x y : WithBot α} : ofBot x = ofBot y ↔ x = y := ofBot_injective.eq_iff

@[simp] theorem ofBot_eq_negInf {x : WithBot α} : ofBot x = negInf ↔ x = ⊥ := by rw [← ofBot_bot, ofBot_inj]

@[simp] theorem ofBot_eq_fin {x : WithBot α} {v : α} : ofBot x = fin v ↔ x = v := by rw [← ofBot_coe, ofBot_inj]

@[simp] theorem ofBot_ne_nan (x : WithBot α) : ofBot x ≠ nan := by
  cases x <;> exact fun h => by cases h

@[simp] theorem ofBot_ne_posInf (x : WithBot α) : ofBot x ≠ posInf := by
  cases x <;> exact fun h => by cases h

@[simp] theorem ofBot_add_ofBot [Add α] (x y : WithBot α) : ofBot x + ofBot y = ofBot (x + y) := by
  cases x <;> cases y <;> rfl

@[simp] theorem ofBot_add_fin [Add α] (x : WithBot α) (v : α) : ofBot x + fin v = ofBot (x + (v : WithBot α)) :=
  ofBot_add_ofBot x v

section Order

variable [LinearOrder α]

@[simp] theorem lt_ofBot (x y : WithBot α) : lt (ofBot x) (ofBot y) = decide (x < y) := by
  cases x using WithBot.recBotCoe <;> cases y using WithBot.recBotCoe <;> simp [lt]

/-- **On values below `+∞` the three maxima are one.** -/
@[simp] theorem stdMax_ofBot (x y : WithBot α) : stdMax (ofBot x) (ofBot y) = ofBot (max x y) := by
  unfold stdMax
  rw [lt_ofBot]
  by_cases h : x < y
  · simp [h, max_eq_right h.le]
  · simp [h, max_eq_left (not_lt.1 h)]

@[simp] theorem ssMax_ofBot (x y : WithBot α) : ssMax (ofBot x) (ofBot y) = ofBot (max x y) := by
  unfold ssMax
  rw [lt_ofBot]
  by_cases h : y < x
  · simp [h, max_eq_left h.le]
  · simp [h, max_eq_right (not_lt.1 h)]

@[simp] theorem neonMax_ofBot (x y : WithBot α) : neonMax (ofBot x) (ofBot y) = ofBot (max x y) := by
  rw [← stdMax_ofBot]
  cases x <;> cases y <;> rfl

end Order

/-! ## Bounds -/

/-- `-∞`, or a finite value between two bounds. -/
def Within [LE α] (lo hi : α) : Flt α → Prop
  | .negInf => True
  | .fin v => lo ≤ v ∧ v ≤ hi
  | _ => False

namespace Within

theorem ne_nan [LE α] {lo hi : α} {x : Flt α} (h : Within lo hi x) : x ≠ .nan := by rintro rfl; exact h

theorem mono [Preorder α] {lo hi lo' hi' : α} {x : Flt α} (h : Within lo hi x) (hlo : lo' ≤ lo) (hhi : hi ≤ hi') :
    Within lo' hi' x := by
  cases x with
  | negInf => trivial
  | fin v => exact ⟨hlo.trans h.1, h.2.trans hhi⟩
  | nan | posInf => exact h.elim

theorem add [Add α] [Preorder α] [AddLeftMono α] [AddRightMono α] {lo hi lo' hi' : α} {x y : Flt α}
    (hx : Within lo hi x) (hy : Within lo' hi' y) : Within (lo + lo') (hi + hi') (x + y) := by
  cases x with
  | negInf =>
    cases y with
    | negInf | fin => trivial
    | nan | posInf => exact hy.elim
  | fin v =>
    cases y with
    | negInf => trivial
    | fin w => exact ⟨add_le_add hx.1 hy.1, add_le_add hx.2 hy.2⟩
    | nan | posInf => exact hy.elim
  | nan | posInf => exact hx.elim

/-- A value below `+∞` is one of `WithBot`, where the three maxima are one. -/
theorem exists_ofBot [LE α] {lo hi : α} {x : Flt α} (h : Within lo hi x) : ∃ b : WithBot α, x = ofBot b := by
  cases x with
  | negInf => exact ⟨⊥, rfl⟩
  | fin v => exact ⟨v, rfl⟩
  | nan | posInf => exact h.elim

/-- A maximum that is `WithBot`'s below `+∞` keeps the bounds. -/
theorem max [LinearOrder α] {mx : Flt α → Flt α → Flt α}
    (hmx : ∀ x y, mx (ofBot x) (ofBot y) = ofBot (Max.max x y)) {lo hi : α} {x y : Flt α} (hx : Within lo hi x)
    (hy : Within lo hi y) : Within lo hi (mx x y) := by
  obtain ⟨a, rfl⟩ := hx.exists_ofBot
  obtain ⟨b, rfl⟩ := hy.exists_ofBot
  rw [hmx]
  rcases le_total a b with h | h
  · rwa [max_eq_right h]
  · rwa [max_eq_left h]

end Within

end Flt
end Lib
