import Fzx.Lib.Flt
/-!
# MatchedItem — matched_item.hpp

An index and a score packed into one signed 64-bit integer, so that one comparison ranks by score, best first, and then
by index (`MatchedItem.lt_iff`).  The constructor is partial: `none` is a failed `DEBUG_ASSERT`, where the cast that
follows is undefined.
-/
namespace Fzx

open Lib

structure MatchedItem where
  mValue : BitVec 64
deriving DecidableEq, Repr

namespace MatchedItem

def kMin : BitVec 32 := BitVec.intMin 32
def kMax : BitVec 32 := BitVec.intMax 32

/-- `static_cast<int32_t>`: the fraction is dropped. -/
def truncate (v : ℚ) : ℤ := if v < 0 then ⌈v⌉ else ⌊v⌋

/-- The high half: the negated score, or the end of the range for an infinity. -/
def hiHalf : Flt ℚ → Option (BitVec 32)
  | .nan => none
  | .fin v => if v ≥ -16777216 ∧ v ≤ 16777216 then some (-(BitVec.ofInt 32 (truncate v))) else none
  | .negInf => some kMax
  | .posInf => some kMin

def pack (hi index : BitVec 32) : MatchedItem := { mValue := (hi.setWidth 64 <<< 32) ||| index.setWidth 64 }

def new (index : UInt32) (score : Flt ℚ) : Option MatchedItem :=
  (hiHalf score).map (fun hi => pack hi index.toBitVec)

def index (m : MatchedItem) : UInt32 := UInt32.ofBitVec ((m.mValue &&& 0xFFFFFFFF).setWidth 32)

def score (m : MatchedItem) : Flt ℚ :=
  let v := (m.mValue >>> 32).setWidth 32
  if v = kMax then .negInf else if v = kMin then .posInf else .fin (-(v.toInt : ℚ))

instance : LT MatchedItem := ⟨fun a b => a.mValue.slt b.mValue = true⟩

instance (a b : MatchedItem) : Decidable (a < b) := inferInstanceAs (Decidable (a.mValue.slt b.mValue = true))

/-! ## The order -/

/-- What the high half encodes: less is better. -/
def rank : Flt ℚ → ℤ
  | .nan => 0
  | .fin v => -truncate v
  | .negInf => 2 ^ 31 - 1
  | .posInf => -2 ^ 31

theorem pack_eq_append (hi index : BitVec 32) : (pack hi index).mValue = hi ++ index := by
  change (hi.setWidth 64 <<< 32) ||| index.setWidth 64 = (hi ++ index : BitVec 64)
  apply BitVec.eq_of_getLsbD_eq
  intro k hk
  rw [BitVec.getLsbD_append]
  by_cases h : k < 32
  · simp [h, hk]
  · rw [BitVec.getLsbD_or, BitVec.getLsbD_shiftLeft, BitVec.getLsbD_setWidth, BitVec.getLsbD_setWidth,
      BitVec.getLsbD_of_ge index k (by omega)]
    simp [h, hk, show k - 32 < 64 by omega]

/-- **The index is read back.** -/
theorem index_of_new {i : UInt32} {x : Flt ℚ} {m : MatchedItem} (h : new i x = some m) : m.index = i := by
  obtain ⟨hi, _, rfl⟩ := Option.map_eq_some_iff.1 h
  have he : ((pack hi i.toBitVec).mValue &&& 0xFFFFFFFF).setWidth 32 = i.toBitVec := by
    rw [pack_eq_append]
    apply BitVec.eq_of_getLsbD_eq
    intro k hk
    have hmask : (0xFFFFFFFF : BitVec 64).getLsbD k = true := by
      have : ∀ k < 32, (0xFFFFFFFF : BitVec 64).getLsbD k = true := by decide
      exact this k hk
    rw [BitVec.getLsbD_setWidth, BitVec.getLsbD_and, BitVec.getLsbD_append, hmask]
    simp [hk]
  rw [index, he]

theorem truncate_mono {a b : ℚ} (h : a ≤ b) : truncate a ≤ truncate b := by
  unfold truncate
  split_ifs with ha hb hb
  · exact Int.ceil_le_ceil h
  · have h1 : ⌈a⌉ ≤ 0 := Int.ceil_le.2 (by exact_mod_cast ha.le)
    have h2 : 0 ≤ ⌊b⌋ := Int.floor_nonneg.2 (not_lt.1 hb)
    omega
  · exact absurd (h.trans_lt hb) ha
  · exact Int.floor_le_floor h

theorem truncate_intCast (z : ℤ) : truncate z = z := by
  unfold truncate
  split <;> simp

theorem toInt_hiHalf {x : Flt ℚ} {hi : BitVec 32} (h : hiHalf x = some hi) : hi.toInt = rank x := by
  cases x with
  | nan => cases h
  | negInf => cases h; decide
  | posInf => cases h; decide
  | fin v =>
    rw [hiHalf] at h
    split at h
    · rename_i hv
      cases h
      have h1 : -16777216 ≤ truncate v := by
        have := truncate_mono hv.1
        rwa [show (-16777216 : ℚ) = ((-16777216 : ℤ) : ℚ) by norm_num, truncate_intCast] at this
      have h2 : truncate v ≤ 16777216 := by
        have := truncate_mono hv.2
        rwa [show (16777216 : ℚ) = ((16777216 : ℤ) : ℚ) by norm_num, truncate_intCast] at this
      rw [← BitVec.ofInt_neg, BitVec.toInt_ofInt, rank]
      exact Int.bmod_eq_of_le (by omega) (by omega)
    · cases h

/-- **One comparison ranks by score, then by index.** -/
theorem lt_iff {a b : MatchedItem} {i j : UInt32} {x y : Flt ℚ} (ha : new i x = some a) (hb : new j y = some b) :
    a < b ↔ rank x < rank y ∨ (rank x = rank y ∧ i < j) := by
  obtain ⟨hx, hhx, rfl⟩ := Option.map_eq_some_iff.1 ha
  obtain ⟨hy, hhy, rfl⟩ := Option.map_eq_some_iff.1 hb
  change (pack hx i.toBitVec).mValue.slt (pack hy j.toBitVec).mValue = true ↔ _
  rw [pack_eq_append, pack_eq_append, BitVec.slt_iff_toInt_lt, BitVec.toInt_append, BitVec.toInt_append,
    toInt_hiHalf hhx, toInt_hiHalf hhy, UInt32.lt_iff_toNat_lt]
  have h1 := i.toNat_lt
  have h2 := j.toNat_lt
  simp only [UInt32.toNat_toBitVec]
  have e : ((32 : ℕ) == 0) = false := rfl
  simp only [e, Bool.false_eq_true, if_false]
  omega

/-! ## What is read back -/

/-- The scores that are kept: whole numbers of at most 2^24 and the infinities. -/
inductive Kept : Flt ℚ → Prop
  | negInf : Kept .negInf
  | posInf : Kept .posInf
  | whole (z : ℤ) (hlo : -16777216 ≤ z) (hhi : z ≤ 16777216) : Kept (.fin z)

theorem hiHalf_whole {z : ℤ} (hlo : -16777216 ≤ z) (hhi : z ≤ 16777216) :
    hiHalf (.fin z) = some (-(BitVec.ofInt 32 z)) := by
  rw [hiHalf, truncate_intCast, if_pos ⟨by exact_mod_cast hlo, by exact_mod_cast hhi⟩]

theorem isSome_new (i : UInt32) {x : Flt ℚ} (h : Kept x) : (new i x).isSome = true := by
  rw [new, Option.isSome_map]
  cases h with
  | negInf => rfl
  | posInf => rfl
  | whole z hlo hhi =>
    rw [hiHalf_whole hlo hhi]
    rfl

theorem shiftRight_pack (hi index : BitVec 32) : ((pack hi index).mValue >>> 32).setWidth 32 = hi := by
  rw [pack_eq_append]
  apply BitVec.eq_of_getLsbD_eq
  intro k hk
  rw [BitVec.getLsbD_setWidth, BitVec.getLsbD_ushiftRight, BitVec.getLsbD_append, if_neg (by omega), Nat.add_sub_cancel_left,
    decide_eq_true hk, Bool.true_and]

/-- **A score that is kept is read back.** -/
theorem score_of_new {i : UInt32} {x : Flt ℚ} {m : MatchedItem} (hx : Kept x) (h : new i x = some m) : m.score = x := by
  obtain ⟨hi, hhi, rfl⟩ := Option.map_eq_some_iff.1 h
  rw [score, shiftRight_pack]
  have hrank := toInt_hiHalf hhi
  cases hx with
  | negInf => cases hhi; rfl
  | posInf => cases hhi; rfl
  | whole z hlo hhi =>
    rw [rank, truncate_intCast] at hrank
    have hmax : hi ≠ kMax := by
      rintro rfl
      have e : kMax.toInt = 2147483647 := by decide
      omega
    have hmin : hi ≠ kMin := by
      rintro rfl
      have e : kMin.toInt = -2147483648 := by decide
      omega
    rw [if_neg hmax, if_neg hmin, hrank, Int.cast_neg, neg_neg]

/-- The rank of a kept score says which it is. -/
theorem rank_inj {x y : Flt ℚ} (hx : Kept x) (hy : Kept y) : rank x = rank y ↔ x = y := by
  refine ⟨fun h => ?_, fun h => congrArg rank h⟩
  cases hx with
  | negInf =>
    cases hy <;> simp [rank, truncate_intCast] at h ⊢
    omega
  | posInf =>
    cases hy <;> simp [rank, truncate_intCast] at h ⊢
    omega
  | whole z hlo hhi => cases hy <;> simp [rank, truncate_intCast] at h ⊢ <;> omega

/-- The lower rank is the higher score. -/
theorem rank_lt_iff {x y : Flt ℚ} (hx : Kept x) (hy : Kept y) : rank x < rank y ↔ Flt.lt y x = true := by
  cases hx <;> cases hy <;> simp [rank, truncate_intCast, Flt.lt] <;> omega

/-- An index and a score that is kept. -/
@[ext] structure Pair where
  index : UInt32
  score : Flt ℚ
  kept : Kept score

def Pair.item (p : Pair) : MatchedItem := (new p.index p.score).get (isSome_new p.index p.kept)

theorem Pair.new_eq (p : Pair) : new p.index p.score = some p.item := (Option.some_get _).symm

theorem Pair.item_lt_iff (p q : Pair) :
    p.item < q.item ↔ Flt.lt q.score p.score = true ∨ (p.score = q.score ∧ p.index < q.index) := by
  rw [lt_iff p.new_eq q.new_eq, rank_lt_iff p.kept q.kept, rank_inj p.kept q.kept]

theorem Pair.item_inj {p q : Pair} (h : p.item = q.item) : p = q := by
  refine Pair.ext ?_ ?_
  · rw [← index_of_new p.new_eq, ← index_of_new q.new_eq, h]
  · rw [← score_of_new p.kept p.new_eq, ← score_of_new q.kept q.new_eq, h]

theorem lt_def (a b : MatchedItem) : a < b ↔ a.mValue.toInt < b.mValue.toInt := BitVec.slt_iff_toInt_lt

/-- **An index and a score are read back, and one signed comparison orders them**: the higher score first, then the lower
index, strictly and totally. -/
theorem Pair.item_order : (∀ p : Pair, new p.index p.score = some p.item ∧ p.item.index = p.index ∧ p.item.score = p.score) ∧
    (∀ p q : Pair,
      (p.item < q.item ↔ Flt.lt q.score p.score = true ∨ (p.score = q.score ∧ p.index < q.index)) ∧
      (p.item = q.item ↔ p.index = q.index ∧ p.score = q.score)) ∧
    IsStrictTotalOrder Pair (fun p q => p.item < q.item) := by
  refine ⟨fun p => ⟨p.new_eq, index_of_new p.new_eq, score_of_new p.kept p.new_eq⟩, fun p q => ⟨p.item_lt_iff q, ?_⟩, ?_⟩
  · constructor
    · intro h
      obtain rfl := item_inj h
      exact ⟨rfl, rfl⟩
    · rintro ⟨hi, hs⟩
      rw [Pair.ext hi hs]
  · refine { trichotomous := fun p q hpq hqp => ?_, irrefl := fun p h => ?_, trans := fun p q r hpq hqr => ?_ }
    · rw [lt_def] at hpq hqp
      have hvalue : p.item.mValue = q.item.mValue := BitVec.eq_of_toInt_eq (by omega)
      exact item_inj (congrArg MatchedItem.mk hvalue)
    · rw [lt_def] at h
      omega
    · rw [lt_def] at hpq hqr ⊢
      omega

end MatchedItem
end Fzx
