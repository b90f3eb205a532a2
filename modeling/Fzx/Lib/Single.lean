import Fzx.Lib.Flt
/-!
# Single — whole numbers in single precision

Core's binary32 is a sign, a mantissa and an exponent, rounded to a mantissa of 24 bits.  A whole number below `2^24`
fills those bits when it is shifted up (`whole`), and rounding only shifts zeros out of a scaled one (`round_scaled`), so
sums and comparisons of whole numbers are those of `ℤ`.  `single` reads a `Flt ℤ` as a binary32.
-/
namespace Lib
namespace Single

open Float.Model (Format totalExponent UnpackedFloat)
open Float.Model.UnpackedFloat

/-! ## Rounding -/

theorem shiftRight_exact : ∀ (n m : ℕ),
    (⟨m * 2 ^ n, false, false⟩ : ExtendedMantissa) >>> n = ⟨m, false, false⟩
  | 0, m => by rw [pow_zero, mul_one]; rfl
  | n + 1, m => by
    have ih := shiftRight_exact n (m * 2)
    change ExtendedMantissa.shiftRightOne ((⟨m * 2 ^ (n + 1), false, false⟩ : ExtendedMantissa) >>> n) = _
    rw [pow_succ', ← mul_assoc, ih, ExtendedMantissa.shiftRightOne]
    simp

/-- How far a mantissa is shifted to fill its 24 bits. -/
def fill (n : ℕ) : ℕ := 23 - n.log2

section

variable {n : ℕ} (h0 : 0 < n)
include h0

theorem log2_scaled (k : ℕ) : (n * 2 ^ k).log2 = n.log2 + k := by
  rw [Nat.log2_eq_iff (Nat.mul_ne_zero (Nat.ne_of_gt h0) (Nat.ne_of_gt (Nat.two_pow_pos k)))]
  obtain ⟨hlo, hhi⟩ := (Nat.log2_eq_iff (Nat.ne_of_gt h0)).1 (rfl : n.log2 = n.log2)
  constructor
  · rw [pow_add]
    exact Nat.mul_le_mul_right _ hlo
  · rw [show n.log2 + k + 1 = n.log2 + 1 + k by omega, pow_add]
    exact Nat.mul_lt_mul_of_pos_right hhi (Nat.two_pow_pos k)

variable (hn : n < 2 ^ 24)
include hn

theorem log2_add_fill : n.log2 + fill n = 23 := by
  have hlog : n.log2 < 24 := (Nat.log2_lt (Nat.ne_of_gt h0)).2 hn
  unfold fill
  omega

theorem targetExponent_scaled (k : ℕ) :
    Format.binary32.targetExponent (totalExponent (n * 2 ^ k) (-k)) = -(fill n : ℤ) := by
  have hlog := log2_add_fill h0 hn
  rw [totalExponent, log2_scaled h0]
  simp only [Format.targetExponent, Format.mantissaBits, Format.minExponent]
  push_cast
  omega

theorem shiftToTargetExponent_scaled {k : ℕ} (hk : fill n ≤ k) :
    shiftToTargetExponent Format.binary32 (n * 2 ^ k) (-k) .exact = (⟨n * 2 ^ fill n, false, false⟩, -(fill n : ℤ)) := by
  have hamount : (-(fill n : ℤ) - -(k : ℤ)).toNat = k - fill n := by omega
  have hsplit : n * 2 ^ k = n * 2 ^ fill n * 2 ^ (k - fill n) := by
    rw [mul_assoc, ← pow_add, Nat.add_sub_cancel' hk]
  rw [shiftToTargetExponent, targetExponent_scaled h0 hn k]
  simp only [shiftToExponent, hamount, ExtendedMantissa.ofMantissaAndAccuracy]
  rw [hsplit, shiftRight_exact]
  exact Prod.ext rfl (by push_cast [hk]; ring)

end

theorem decreaseExponent_scaled (n k t : ℕ) :
    decreaseExponent (n * 2 ^ k) (-k) (-t) = (n * 2 ^ max k t, -((max k t : ℕ) : ℤ)) := by
  have hamount : (-(k : ℤ) - -(t : ℤ)).toNat = t - k := by omega
  simp only [decreaseExponent, hamount, Nat.shiftLeft_eq]
  refine Prod.ext ?_ (by dsimp only; omega)
  dsimp only
  rw [mul_assoc, ← pow_add, show k + (t - k) = max k t by omega]

theorem scaled_pos {n : ℕ} (h0 : 0 < n) (k : ℕ) : 0 < n * 2 ^ k := Nat.mul_pos h0 (Nat.two_pow_pos k)

/-- Rounding at a scale that leaves no bit below the target only shifts zeros out. -/
theorem roundWithAccuracy_scaled {n : ℕ} (h0 : 0 < n) (hn : n < 2 ^ 24) (s : Sign) {k : ℕ} (hk : fill n ≤ k) :
    roundWithAccuracy Format.binary32 s (n * 2 ^ k) (-k) .exact
      = .finite s (n * 2 ^ fill n) (-(fill n : ℤ)) (scaled_pos h0 _) := by
  -- the first shift leaves no residual bits, so the mantissa is its own rounding and the second shift is by 0
  have hrounded : (⟨n * 2 ^ fill n, false, false⟩ : ExtendedMantissa).roundedMantissa = n * 2 ^ fill n := rfl
  simp only [roundWithAccuracy, shiftToTargetExponent_scaled h0 hn hk, hrounded,
    shiftToTargetExponent_scaled h0 hn (le_refl (fill n)), Nat.ne_of_gt (scaled_pos h0 (fill n)), dif_neg,
    not_false_eq_true]

/-- **Rounding a scaled whole number is exact**, whatever the scale. -/
theorem round_scaled {n : ℕ} (h0 : 0 < n) (hn : n < 2 ^ 24) (s : Sign) (k : ℕ) :
    UnpackedFloat.round Format.binary32 s (n * 2 ^ k) (-k)
      = .finite s (n * 2 ^ fill n) (-(fill n : ℤ)) (scaled_pos h0 _) := by
  simp only [UnpackedFloat.round, targetExponent_scaled h0 hn, decreaseExponent_scaled]
  exact roundWithAccuracy_scaled h0 hn s (le_max_right k (fill n))

/-! ## Whole numbers -/

/-- A whole number as an unpacked float in canonical form. -/
def whole (z : ℤ) : UnpackedFloat :=
  if h : z = 0 then .zero .positive
  else .finite (if z < 0 then .negative else .positive) (z.natAbs * 2 ^ fill z.natAbs) (-(fill z.natAbs : ℤ))
    (scaled_pos (Int.natAbs_pos.2 h) _)

theorem whole_apply (s : Sign) {n : ℕ} (h0 : 0 < n) :
    whole (s.apply n) = .finite s (n * 2 ^ fill n) (-(fill n : ℤ)) (scaled_pos h0 _) := by
  cases s with
  | negative =>
    rw [Sign.apply, whole, dif_neg (by omega)]
    simp [h0]
  | positive =>
    rw [Sign.apply, whole, dif_neg (by omega)]
    simp

/-- A whole number is zero, or a sign and a positive magnitude. -/
theorem whole_cases {motive : ℤ → Prop} (zero : motive 0)
    (signed : ∀ (s : Sign) (n : ℕ), 0 < n → motive (s.apply n)) (z : ℤ) : motive z := by
  rcases Int.lt_trichotomy z 0 with h | rfl | h
  · have e : z = Sign.negative.apply z.natAbs := by simp only [Sign.apply]; omega
    exact e ▸ signed .negative z.natAbs (by omega)
  · exact zero
  · have e : z = Sign.positive.apply z.natAbs := by simp only [Sign.apply]; omega
    exact e ▸ signed .positive z.natAbs (by omega)

theorem natAbs_apply (s : Sign) (n : ℕ) : (s.apply n).natAbs = n := by cases s <;> simp [Sign.apply]

/-- **Normalizing a scaled whole number is exact.** -/
theorem normalize_scaled (z : ℤ) (h : z.natAbs < 2 ^ 24) (k : ℕ) :
    UnpackedFloat.normalize Format.binary32 (z * 2 ^ k) (-k) .positive = whole z := by
  induction z using whole_cases with
  | zero => simp [UnpackedFloat.normalize, whole]
  | signed s n h0 =>
    rw [natAbs_apply] at h
    have hpos := scaled_pos h0 k
    have hcast : (n : ℤ) * 2 ^ k = ((n * 2 ^ k : ℕ) : ℤ) := by push_cast; ring
    rw [whole_apply s h0, ← round_scaled h0 h s k]
    cases s with
    | negative =>
      rw [Sign.apply, neg_mul, hcast, UnpackedFloat.normalize, Int.compare_eq_lt.2 (by omega), neg_neg, Int.toNat_natCast]
    | positive => rw [Sign.apply, hcast, UnpackedFloat.normalize, Int.compare_eq_gt.2 (by omega), Int.toNat_natCast]

theorem ofInt_eq {z : ℤ} (h : z.natAbs < 2 ^ 24) : ofInt Format.binary32 z = whole z := by
  simpa [ofInt] using normalize_scaled z h 0

/-! ## Sums and comparisons -/

/-- The mantissa of a whole number, signed, once it is scaled by `2^k`. -/
theorem apply_scaled (s : Sign) (n k : ℕ) : s.apply ((n * 2 ^ k : ℕ) : ℤ) = s.apply n * 2 ^ k := by
  cases s <;> simp [Sign.apply]

/-- **The sum of two whole numbers is exact** when it fits the mantissa. -/
theorem add_whole (x y : ℤ) (hxy : (x + y).natAbs < 2 ^ 24) :
    UnpackedFloat.add Format.binary32 (whole x) (whole y) = whole (x + y) := by
  have hzero : whole 0 = .zero .positive := rfl
  induction x using whole_cases with
  | zero =>
    rw [zero_add, hzero]
    induction y using whole_cases with
    | zero => rfl
    | signed t n hn => rw [whole_apply t hn]; rfl
  | signed s m hm =>
    induction y using whole_cases with
    | zero => rw [add_zero, hzero, whole_apply s hm]; rfl
    | signed t n hn =>
      -- both are brought to one scale, where their mantissas are added
      have hmin : min (-(fill m : ℤ)) (-(fill n : ℤ)) = -((max (fill m) (fill n) : ℕ) : ℤ) := by omega
      have hleft : max (fill m) (max (fill m) (fill n)) = max (fill m) (fill n) := by omega
      have hright : max (fill n) (max (fill m) (fill n)) = max (fill m) (fill n) := by omega
      rw [whole_apply s hm, whole_apply t hn]
      simp only [UnpackedFloat.add, hmin, decreaseExponent_scaled, hleft, hright, apply_scaled]
      rw [← add_mul, normalize_scaled _ hxy]

theorem lt_of_log2_lt {m n : ℕ} (hm : 0 < m) (h : m.log2 < n.log2) : m < n := by
  have hn : n ≠ 0 := by rintro rfl; simp at h
  exact ((Nat.log2_lt (Nat.ne_of_gt hm)).1 h).trans_le (Nat.log2_self_le hn)

theorem apply_mul_apply (s t : Sign) (m n : ℕ) : s.apply m * t.apply n = (s * t).apply ((m * n : ℕ) : ℤ) := by
  rw [Nat.cast_mul]
  cases s <;> cases t
  · exact neg_mul_neg (m : ℤ) n
  · exact neg_mul (m : ℤ) n
  · exact mul_neg (m : ℤ) n
  · rfl

/-- **The product of two whole numbers is exact** when it fits the mantissa. -/
theorem mul_apply (s t : Sign) {m n : ℕ} (hm : 0 < m) (hn : 0 < n) (hmn : m * n < 2 ^ 24) :
    UnpackedFloat.mul Format.binary32 (whole (s.apply m)) (whole (t.apply n)) = whole (s.apply m * t.apply n) := by
  have hscale : m * 2 ^ fill m * (n * 2 ^ fill n) = m * n * 2 ^ (fill m + fill n) := by rw [pow_add]; ring
  have hexp : -(fill m : ℤ) + -(fill n : ℤ) = -((fill m + fill n : ℕ) : ℤ) := by push_cast; ring
  have hfill : fill (m * n) ≤ fill m + fill n := by
    have hle : m.log2 ≤ (m * n).log2 :=
      (Nat.le_log2 (Nat.mul_ne_zero hm.ne' hn.ne')).2 ((Nat.log2_self_le hm.ne').trans (Nat.le_mul_of_pos_right m hn))
    unfold fill
    omega
  rw [apply_mul_apply, whole_apply s hm, whole_apply t hn, whole_apply _ (Nat.mul_pos hm hn)]
  simp only [UnpackedFloat.mul, hscale, hexp]
  exact roundWithAccuracy_scaled (Nat.mul_pos hm hn) hmn (s * t) hfill

/-- Scaled mantissas compare as the numbers do: first by the exponent, then by the mantissa. -/
theorem compare_scaled {m n : ℕ} (hm : 0 < m) (hn : 0 < n) (hm' : m < 2 ^ 24) (hn' : n < 2 ^ 24) :
    (compare (-(fill m : ℤ)) (-(fill n : ℤ))).then (compare (m * 2 ^ fill m) (n * 2 ^ fill n)) = compare m n := by
  have hlm := log2_add_fill hm hm'
  have hln := log2_add_fill hn hn'
  rcases Nat.lt_trichotomy (fill m) (fill n) with h | h | h
  · have hlog : n.log2 < m.log2 := by omega
    have hlt : n < m := lt_of_log2_lt hn (by omega)
    rw [Int.compare_eq_gt.2 (by omega), Nat.compare_eq_gt.2 hlt]
    rfl
  · rw [h, Int.compare_eq_eq.2 rfl]
    have hpow := Nat.two_pow_pos (fill n)
    rcases Nat.lt_trichotomy m n with hlt | rfl | hlt
    · rw [Nat.compare_eq_lt.2 hlt, Nat.compare_eq_lt.2 (Nat.mul_lt_mul_of_pos_right hlt hpow)]
      rfl
    · simp
    · rw [Nat.compare_eq_gt.2 hlt, Nat.compare_eq_gt.2 (Nat.mul_lt_mul_of_pos_right hlt hpow)]
      rfl
  · have hlt : m < n := lt_of_log2_lt hm (by omega)
    rw [Int.compare_eq_lt.2 (by omega), Nat.compare_eq_lt.2 hlt]
    rfl

theorem swap_compare_nat (m n : ℕ) : (compare m n).swap = compare (-(m : ℤ)) (-(n : ℤ)) := by
  rcases Nat.lt_trichotomy m n with h | rfl | h
  · rw [Nat.compare_eq_lt.2 h, Int.compare_eq_gt.2 (by omega)]
    rfl
  · rw [Nat.compare_eq_eq.2 rfl, Int.compare_eq_eq.2 rfl]
    rfl
  · rw [Nat.compare_eq_gt.2 h, Int.compare_eq_lt.2 (by omega)]
    rfl

theorem compare_nat (m n : ℕ) : compare m n = compare (m : ℤ) (n : ℤ) := by
  rcases Nat.lt_trichotomy m n with h | rfl | h
  · rw [Nat.compare_eq_lt.2 h, Int.compare_eq_lt.2 (by omega)]
  · rw [Nat.compare_eq_eq.2 rfl, Int.compare_eq_eq.2 rfl]
  · rw [Nat.compare_eq_gt.2 h, Int.compare_eq_gt.2 (by omega)]

/-- **Whole numbers compare as in `ℤ`.** -/
theorem compare_whole (x y : ℤ) (hx : x.natAbs < 2 ^ 24) (hy : y.natAbs < 2 ^ 24) :
    (whole x).compare (whole y) = some (compare x y) := by
  have hzero : whole 0 = .zero .positive := rfl
  induction x using whole_cases with
  | zero =>
    induction y using whole_cases with
    | zero => rfl
    | signed t n hn =>
      rw [hzero, whole_apply t hn]
      cases t with
      | negative => rw [Sign.apply, Int.compare_eq_gt.2 (by omega)]; rfl
      | positive => rw [Sign.apply, Int.compare_eq_lt.2 (by omega)]; rfl
  | signed s m hm =>
    rw [natAbs_apply] at hx
    induction y using whole_cases with
    | zero =>
      rw [hzero, whole_apply s hm]
      cases s with
      | negative => rw [Sign.apply, Int.compare_eq_lt.2 (by omega)]; rfl
      | positive => rw [Sign.apply, Int.compare_eq_gt.2 (by omega)]; rfl
    | signed t n hn =>
      rw [natAbs_apply] at hy
      have hmag := compare_scaled hm hn hx hy
      rw [whole_apply s hm, whole_apply t hn]
      cases s <;> cases t
      · rw [Sign.apply, Sign.apply, ← swap_compare_nat, ← hmag]; rfl
      · rw [Sign.apply, Sign.apply, Int.compare_eq_lt.2 (by omega)]; rfl
      · rw [Sign.apply, Sign.apply, Int.compare_eq_gt.2 (by omega)]; rfl
      · rw [Sign.apply, Sign.apply, ← compare_nat, ← hmag]; rfl

/-! ## The packed form -/

/-- The sign is what lies above the exponent and the mantissa. -/
theorem unpackSign_packComponents (s : Sign) (e : BitVec 8) (m : BitVec 23) :
    unpackSign (packComponents Format.binary32 s e m) = s.toBitVec := by
  change (s.toBitVec ++ e ++ m).extractLsb' 31 1 = s.toBitVec
  rw [BitVec.extractLsb'_append_eq_of_le (by decide), BitVec.extractLsb'_append_eq_of_le (by decide)]
  cases s <;> rfl

theorem ofBitVec_toBitVec (s : Sign) : Sign.ofBitVec s.toBitVec = s := by cases s <;> rfl

/-- **A float with its leading bit in place survives packing**: the bit is dropped, and put back. -/
theorem unpack_pack_normal {m d : ℕ} (hlog : m.log2 = 23) (hd : d ≤ 23) (hm : 0 < m) (s : Sign) :
    unpack Format.binary32 (pack Format.binary32 (.finite s m (-(d : ℤ)) hm)) = .finite s m (-(d : ℤ)) hm := by
  obtain ⟨hlo, hhi⟩ := (Nat.log2_eq_iff (Nat.ne_of_gt hm)).1 hlog
  have hbiased : (-(d : ℤ) + Format.binary32.exponentBias + Format.binary32.mantissaBitsWithoutImplicit).toNat
      = 150 - d := by
    change (-(d : ℤ) + 127 + 23).toNat = 150 - d
    omega
  have hpack : pack Format.binary32 (.finite s m (-(d : ℤ)) hm)
      = packComponents Format.binary32 s (BitVec.ofNat 8 (150 - d)) (BitVec.ofNat 23 m) := by
    simp only [pack, hbiased, hlog]
    rw [if_neg (by change ¬ 256 ≤ 150 - d + 1; omega),
      if_pos (show 23 + 1 = Format.binary32.mantissaBits from rfl)]
  have hexp : (BitVec.ofNat 8 (150 - d)).toNat = 150 - d := by
    rw [BitVec.toNat_ofNat, Nat.mod_eq_of_lt (by omega)]
  have hmant : (1#1 ++ BitVec.ofNat 23 m).toNat = m := by
    rw [BitVec.toNat_append, BitVec.toNat_ofNat, Nat.shiftLeft_eq, Nat.or_comm]
    change m % 2 ^ 23 ||| 2 ^ 23 = m
    rw [Nat.or_two_pow_eq_add_of_lt (Nat.mod_lt m (Nat.two_pow_pos 23))]
    omega
  have hones : BitVec.ofNat 8 (150 - d) ≠ -1#8 := fun h => by
    have := congrArg BitVec.toNat h
    rw [hexp] at this
    change 150 - d = 255 at this
    omega
  have hzeros : BitVec.ofNat 8 (150 - d) ≠ 0#8 := fun h => by
    have := congrArg BitVec.toNat h
    rw [hexp] at this
    change 150 - d = 0 at this
    omega
  rw [hpack]
  simp only [unpack, unpackMantissa_packComponents, unpackExponent_packComponents, unpackSign_packComponents,
    ofBitVec_toBitVec, hexp]
  rw [if_neg hones, if_neg hzeros]
  simp only [hmant]
  congr 1
  change (((150 - d : ℕ) : ℤ)) - (127 + 23) = -(d : ℤ)
  omega

theorem unpack_pack_whole {z : ℤ} (h : z.natAbs < 2 ^ 24) :
    unpack Format.binary32 (pack Format.binary32 (whole z)) = whole z := by
  induction z using whole_cases with
  | zero => rfl
  | signed s n h0 =>
    rw [natAbs_apply] at h
    rw [whole_apply s h0]
    exact unpack_pack_normal (by rw [log2_scaled h0, log2_add_fill h0 h]) (Nat.sub_le _ _) _ _

/-! ## Floats with a whole finite part -/

/-- A `Flt ℤ` in single precision. -/
def single : Flt ℤ → Float32.Model
  | .nan => .pack .notANumber
  | .negInf => .pack (.infinity .negative)
  | .fin v => .ofInt v
  | .posInf => .pack (.infinity .positive)

/-- A finite part that fits the mantissa. -/
def Fits : Flt ℤ → Prop
  | .fin v => v.natAbs < 2 ^ 24
  | _ => True

/-- A `Flt ℤ` as an unpacked float in canonical form. -/
def unpacked : Flt ℤ → UnpackedFloat
  | .nan => .notANumber
  | .negInf => .infinity .negative
  | .fin v => whole v
  | .posInf => .infinity .positive

theorem single_eq_pack {x : Flt ℤ} (hx : Fits x) : single x = .pack (unpacked x) := by
  cases x with
  | fin v => exact congrArg Float32.Model.pack (ofInt_eq hx)
  | nan | negInf | posInf => rfl

theorem unpack_single {x : Flt ℤ} (hx : Fits x) : (single x).unpack = unpacked x := by
  rw [single_eq_pack hx]
  cases x with
  | fin v => exact unpack_pack_whole hx
  | nan | negInf | posInf => rfl

theorem add_unpacked (x y : Flt ℤ) (hxy : Fits (x + y)) :
    UnpackedFloat.add Format.binary32 (unpacked x) (unpacked y) = unpacked (x + y) := by
  have hinf : ∀ (s : Sign) (v : ℤ), UnpackedFloat.add Format.binary32 (.infinity s) (whole v) = .infinity s ∧
      UnpackedFloat.add Format.binary32 (whole v) (.infinity s) = .infinity s := by
    intro s v
    induction v using whole_cases with
    | zero => exact ⟨rfl, rfl⟩
    | signed t n hn => rw [whole_apply t hn]; exact ⟨rfl, rfl⟩
  have hnan : ∀ v : ℤ, UnpackedFloat.add Format.binary32 (whole v) .notANumber = .notANumber := by
    intro v
    induction v using whole_cases with
    | zero => rfl
    | signed t n hn => rw [whole_apply t hn]; rfl
  cases x with
  | nan => rfl
  | negInf =>
    cases y with
    | fin w => exact (hinf _ w).1
    | nan | negInf | posInf => rfl
  | fin v =>
    cases y with
    | nan => exact hnan v
    | fin w => exact add_whole v w hxy
    | negInf | posInf => exact (hinf _ v).2
  | posInf =>
    cases y with
    | fin w => exact (hinf _ w).1
    | nan | negInf | posInf => rfl

/-- **A sum in single precision is exact** when its finite part fits. -/
theorem single_add {x y : Flt ℤ} (hx : Fits x) (hy : Fits y) (hxy : Fits (x + y)) :
    single x + single y = single (x + y) := by
  rw [single_eq_pack hxy, ← add_unpacked x y hxy, ← unpack_single hx, ← unpack_single hy]
  rfl

theorem add_eq_pack (a b : Float32.Model) :
    a + b = .pack (UnpackedFloat.add Format.binary32 a.unpack b.unpack) := rfl

theorem mul_eq_pack (a b : Float32.Model) :
    a * b = .pack (UnpackedFloat.mul Format.binary32 a.unpack b.unpack) := rfl

/-- A zero of either sign is neutral. -/
theorem pack_zero_add (s : Sign) {z : ℤ} (hz : Fits (.fin z)) :
    Float32.Model.pack (.zero s) + single (.fin z) = single (.fin z) := by
  have hu : (Float32.Model.pack (.zero s)).unpack = .zero s := by cases s <;> rfl
  have hadd : UnpackedFloat.add Format.binary32 (.zero s) (whole z) = whole z := by
    induction z using whole_cases with
    | zero => cases s <;> rfl
    | signed t n hn => rw [whole_apply t hn]; rfl
  rw [add_eq_pack, hu, unpack_single hz, single_eq_pack hz]
  exact congrArg Float32.Model.pack hadd

/-- **A product of whole numbers is exact as a summand**: a zero's sign is lost in the sum. -/
theorem single_mul_add {x y z : ℤ} (hx : Fits (.fin x)) (hy : Fits (.fin y)) (hz : Fits (.fin z))
    (hxy : Fits (.fin (x * y))) (hxyz : Fits (.fin (x * y + z))) :
    single (.fin x) * single (.fin y) + single (.fin z) = single (.fin (x * y + z)) := by
  rw [mul_eq_pack, unpack_single hx, unpack_single hy, unpacked, unpacked]
  have hzero : ∀ (s : Sign) (v : ℤ), ∃ t : Sign,
      UnpackedFloat.mul Format.binary32 (.zero s) (whole v) = .zero t ∧
        UnpackedFloat.mul Format.binary32 (whole v) (.zero s) = .zero t := by
    intro s v
    induction v using whole_cases with
    | zero => exact ⟨s, by cases s <;> rfl, by cases s <;> rfl⟩
    | signed t n hn => rw [whole_apply t hn]; exact ⟨s * t, rfl, by cases s <;> cases t <;> rfl⟩
  induction x using whole_cases with
  | zero =>
    obtain ⟨t, ht, -⟩ := hzero .positive y
    rw [show whole 0 = .zero .positive from rfl, ht, zero_mul, zero_add, pack_zero_add t hz]
  | signed s m hm =>
    induction y using whole_cases with
    | zero =>
      obtain ⟨t, -, ht⟩ := hzero .positive (s.apply m)
      rw [show whole 0 = .zero .positive from rfl, ht, mul_zero, zero_add, pack_zero_add t hz]
    | signed t n hn =>
      have hmn : m * n < 2 ^ 24 := by
        rw [Fits, apply_mul_apply, natAbs_apply] at hxy
        exact hxy
      have hpack : Float32.Model.pack (whole (s.apply m * t.apply n)) = single (.fin (s.apply m * t.apply n)) :=
        (single_eq_pack hxy).symm
      rw [mul_apply s t hm hn hmn, hpack, single_add hxy hz hxyz]
      rfl

theorem compare_unpacked {x y : Flt ℤ} (hx : Fits x) (hy : Fits y) (hnx : x ≠ .nan) (hny : y ≠ .nan) :
    (unpacked x).compare (unpacked y) = some (if Flt.lt x y then .lt else if x = y then .eq else .gt) := by
  have hinf : ∀ v : ℤ, UnpackedFloat.compare (.infinity .negative) (whole v) = some .lt ∧
      UnpackedFloat.compare (whole v) (.infinity .negative) = some .gt ∧
      UnpackedFloat.compare (.infinity .positive) (whole v) = some .gt ∧
      UnpackedFloat.compare (whole v) (.infinity .positive) = some .lt := by
    intro v
    induction v using whole_cases with
    | zero => exact ⟨rfl, rfl, rfl, rfl⟩
    | signed t n hn => rw [whole_apply t hn]; cases t <;> exact ⟨rfl, rfl, rfl, rfl⟩
  cases x with
  | nan => exact absurd rfl hnx
  | negInf =>
    cases y with
    | nan => exact absurd rfl hny
    | fin w => exact (hinf w).1
    | negInf | posInf => rfl
  | fin v =>
    cases y with
    | nan => exact absurd rfl hny
    | fin w =>
      rw [unpacked, unpacked, compare_whole v w hx hy, Flt.lt_fin]
      rcases Int.lt_trichotomy v w with h | rfl | h
      · simp [Int.compare_eq_lt.2 h, h]
      · simp
      · simp [Int.compare_eq_gt.2 h, not_lt.2 h.le, h.ne']
    | negInf => exact (hinf v).2.1
    | posInf => exact (hinf v).2.2.2
  | posInf =>
    cases y with
    | nan => exact absurd rfl hny
    | fin w => exact (hinf w).2.2.1
    | negInf | posInf => rfl

/-- **Two floats that are no NaNs are equal as numbers exactly when they are equal.** -/
theorem single_beq {x y : Flt ℤ} (hx : Fits x) (hy : Fits y) (hnx : x ≠ .nan) (hny : y ≠ .nan) :
    (single x == single y) = decide (x = y) := by
  change ((single x).unpack.compare (single y).unpack == some .eq) = decide (x = y)
  rw [unpack_single hx, unpack_single hy, compare_unpacked hx hy hnx hny]
  cases hlt : Flt.lt x y with
  | true =>
    have hne : x ≠ y := by
      rintro rfl
      cases x <;> simp [Flt.lt] at hlt
    simp [hne]
  | false =>
    by_cases h : x = y <;> simp [h]

theorem single_lt {x y : Flt ℤ} (hx : Fits x) (hy : Fits y) (hnx : x ≠ .nan) (hny : y ≠ .nan) :
    single x < single y ↔ Flt.lt x y = true := by
  change ((single x).unpack.compare (single y).unpack == some .lt) = true ↔ _
  rw [unpack_single hx, unpack_single hy, compare_unpacked hx hy hnx hny]
  cases hlt : Flt.lt x y with
  | true => simp
  | false => by_cases h : x = y <;> simp [h]

end Single
end Lib
