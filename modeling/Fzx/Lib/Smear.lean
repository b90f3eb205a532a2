import Mathlib
/-!
# Smear — a number or-ed with its own shifts

`Smeared m x d`: every bit of `x` is set that is set in `m` or lies less than `d` below one that is.  Or-ing `x` with `x`
shifted by `d` doubles `d`; from the width on, all bits below the highest one of `m` are set.
-/
namespace Lib

variable {w : ℕ}

def Smeared (m x : BitVec w) (d : ℕ) : Prop := ∀ p, x.getLsbD p = true ↔ ∃ k < d, m.getLsbD (p + k) = true

/-- The shifts 1, 2, 4, … -/
def smear (shifts : List ℕ) (m : BitVec w) : BitVec w := shifts.foldl (fun x i => x ||| x >>> i) m

theorem smeared_one (m : BitVec w) : Smeared m m 1 := fun p =>
  ⟨fun h => ⟨0, Nat.one_pos, h⟩, fun ⟨k, hk, h⟩ => by rwa [Nat.lt_one_iff.1 hk] at h⟩

/-- **A shift by the distance reached doubles it.** -/
theorem Smeared.double {m x : BitVec w} {d : ℕ} (h : Smeared m x d) : Smeared m (x ||| x >>> d) (d + d) := by
  intro p
  rw [BitVec.getLsbD_or, BitVec.getLsbD_ushiftRight, Bool.or_eq_true, h p, h (d + p)]
  constructor
  · rintro (⟨k, hk, hm⟩ | ⟨k, hk, hm⟩)
    · exact ⟨k, Nat.lt_add_right d hk, hm⟩
    · refine ⟨d + k, Nat.add_lt_add_left hk d, ?_⟩
      rwa [← Nat.add_assoc, Nat.add_comm p d]
  · rintro ⟨k, hk, hm⟩
    by_cases hlt : k < d
    · exact .inl ⟨k, hlt, hm⟩
    · right
      refine ⟨k - d, by omega, ?_⟩
      rwa [show d + p + (k - d) = p + k by omega]

theorem smear_concat (shifts : List ℕ) (i : ℕ) (m : BitVec w) :
    smear (shifts ++ [i]) m = smear shifts m ||| smear shifts m >>> i := List.foldl_concat _ _ _ _

/-- **`n` doublings.** -/
theorem smeared_smear (m : BitVec w) : ∀ n : ℕ, Smeared m (smear ((List.range n).map (2 ^ ·)) m) (2 ^ n)
  | 0 => smeared_one m
  | n + 1 => by
    rw [List.range_succ, List.map_append, List.map_singleton, smear_concat, pow_succ, Nat.mul_two]
    exact (smeared_smear m n).double

/-- **Smeared over the whole width**, a number has all bits up to its highest one. -/
theorem Smeared.toNat_eq {m x : BitVec w} {d : ℕ} (h : Smeared m x d) (hd : w ≤ d) :
    x.toNat = 2 ^ Nat.size m.toNat - 1 := by
  apply Nat.eq_of_testBit_eq
  intro p
  rw [Nat.testBit_two_pow_sub_one, Bool.eq_iff_iff, decide_eq_true_iff, Nat.lt_size, BitVec.testBit_toNat, h p]
  constructor
  · rintro ⟨k, -, hm⟩
    have hle : 2 ^ (p + k) ≤ m.toNat := Nat.ge_two_pow_of_testBit hm
    exact Nat.le_trans (Nat.pow_le_pow_right Nat.two_pos (Nat.le_add_right p k)) hle
  · intro hle
    obtain ⟨q, hq, hm⟩ := Nat.exists_ge_and_testBit_of_ge_two_pow hle
    have hm : m.getLsbD q = true := hm
    have hlt : q < w := BitVec.lt_of_getLsbD hm
    refine ⟨q - p, by omega, ?_⟩
    rwa [Nat.add_sub_of_le hq]

end Lib
