import Fzx.Lib.Subseq
/-!
# Bytes — characters, registers and padded storage (strings.hpp, simd.hpp, util.hpp, aligned_string.hpp)

Strings are lists of bytes.  A `char` is compared with letters only, so its sign never shows: a byte from 128 on is
outside every range, signed or not.  A 16-byte register is a vector of bytes and each intrinsic is its documented
operation on the lanes.
-/
namespace Fzx

abbrev Bytes := List UInt8

def toUpper (ch : UInt8) : UInt8 := if ch ≥ 'a'.toUInt8 ∧ ch ≤ 'z'.toUInt8 then ch - 32 else ch

def toLower (ch : UInt8) : UInt8 := if ch ≥ 'A'.toUInt8 ∧ ch ≤ 'Z'.toUInt8 then ch + 32 else ch

/-- The ASCII capitals. -/
def isUpper (ch : UInt8) : Bool := decide (ch ≥ 'A'.toUInt8 ∧ ch ≤ 'Z'.toUInt8)

/-- `toLower(out, in, len)`: every byte lowered.  The vector versions lower 16 or 32 bytes at a time with
`simdToLower`, which is `toLower` on every lane (`simdToLower_eq`). -/
def lower (s : Bytes) : Bytes := s.map toLower

@[simp] theorem length_lower (s : Bytes) : (lower s).length = s.length := List.length_map _

/-- `roundUp<N>`: an integer up to a multiple of `N`. -/
def roundUp (N n : ℕ) : ℕ := n / N * N + (if n % N = 0 then 0 else 1) * N

/-- Storage of a string: its bytes, then zeros up to a multiple of `N`.  `Items::push` pads to 16 bytes, `AlignedString`
to the 64 of a cache line. -/
def zeroPad (N : ℕ) (s : Bytes) : Bytes := s ++ List.replicate (roundUp N s.length - s.length) 0

def kCacheLine : ℕ := 64

/-! ## 16-byte registers -/

abbrev Reg := Vector UInt8 16

def set1Epi8 (c : UInt8) : Reg := Vector.replicate 16 c

def addEpi8 (a b : Reg) : Reg := Vector.zipWith (· + ·) a b

def andSi128 (a b : Reg) : Reg := Vector.zipWith (· &&& ·) a b

/-- `_mm_cmpgt_epi8`: lanes compared as signed bytes. -/
def cmpgtEpi8 (a b : Reg) : Reg := Vector.zipWith (fun x y => if y.toInt8 < x.toInt8 then 0xFF else 0) a b

def cmpeqEpi8 (a b : Reg) : Reg := Vector.zipWith (fun x y => if x = y then 0xFF else 0) a b

/-- `_mm_movemask_epi8`: bit `k` is the sign bit of lane `k`. -/
def movemaskEpi8 (a : Reg) : BitVec 32 :=
  (BitVec.ofBoolListLE (a.toList.map (fun x => decide (x ≥ 0x80)))).setWidth 32

/-- `_mm_load_si128` of the 16 bytes from `off` on. -/
def loadSi128 (mem : Bytes) (off : ℕ) : Reg := Vector.ofFn (fun k => mem.getD (off + k) 0)

/-- `simd::toLower` on SSE2. -/
def simdToLower (r : Reg) : Reg :=
  let t := addEpi8 r (set1Epi8 63) -- offset so that 'A' is the least signed byte
  let t := cmpgtEpi8 (set1Epi8 (-102)) t -- lower or equal 'Z'
  let t := andSi128 t (set1Epi8 32)
  addEpi8 r t

/-- `simd::toLower` on NEON, one lane: unsigned throughout. -/
def neonToLowerLane (r : UInt8) : UInt8 :=
  let t := r - 'A'.toUInt8
  let t : UInt8 := if t < 26 then 0xFF else 0
  let t := t &&& 32
  r + t

/-- `ffs32`: one more than the index of the least significant set bit, 0 if there is none. -/
def ffs32 (x : BitVec 32) : ℕ := match (List.range 32).find? (fun k => x.getLsbD k) with
  | some k => k + 1
  | none => 0

/-! ## Letters -/

theorem forall_byte {p : UInt8 → Prop} (h : ∀ n : Fin 256, p (UInt8.ofFin n)) (b : UInt8) : p b := by
  simpa using h b.toFin

theorem toLower_toLower : ∀ b : UInt8, toLower (toLower b) = toLower b := forall_byte (by decide +kernel)

theorem toLower_eq_zero : ∀ b : UInt8, toLower b = 0 ↔ b = 0 := forall_byte (by decide +kernel)

@[simp] theorem toLower_zero : toLower 0 = 0 := rfl

theorem toLower_of_not_isUpper (b : UInt8) (h : isUpper b = false) : toLower b = b := by
  unfold toLower; rw [if_neg (by simpa [isUpper] using h)]

/-- **The two bytes with a lower-case image**: the byte and its upper-case form. -/
theorem toLower_eq_iff (c x : UInt8) (hc : isUpper c = false) : toLower c = toLower x ↔ x = c ∨ x = toUpper c := by
  rw [toLower_of_not_isUpper c hc]
  have hc' : ¬ (c ≥ 'A'.toUInt8 ∧ c ≤ 'Z'.toUInt8) := by simpa [isUpper] using hc
  simp only [toLower, toUpper, ge_iff_le, show 'A'.toUInt8 = 65 from rfl, show 'Z'.toUInt8 = 90 from rfl,
    show 'a'.toUInt8 = 97 from rfl, show 'z'.toUInt8 = 122 from rfl, UInt8.le_iff_toNat_le, ← UInt8.toNat_inj] at *
  have h1 := c.toNat_lt
  have h2 := x.toNat_lt
  split_ifs <;> simp only [UInt8.toNat_add, UInt8.toNat_sub, UInt8.toNat_ofNat] at * <;> omega

theorem toLower_ne_of_isUpper : ∀ c : UInt8, isUpper c = true → toLower c ≠ c ∧ toLower c ≠ toUpper c :=
  forall_byte (by decide +kernel)

theorem simdToLower_lane : ∀ b : UInt8,
    b + ((if (b + 63).toInt8 < (-102 : UInt8).toInt8 then 0xFF else 0) &&& 32) = toLower b :=
  forall_byte (by decide +kernel)

/-- **The vector lower-casing is the scalar one on every lane.** -/
theorem simdToLower_eq (r : Reg) : simdToLower r = r.map toLower := by
  apply Vector.ext
  intro k hk
  simp only [simdToLower, addEpi8, andSi128, cmpgtEpi8, set1Epi8, Vector.getElem_zipWith, Vector.getElem_replicate,
    Vector.getElem_map]
  exact simdToLower_lane _

theorem neonToLowerLane_eq : ∀ b : UInt8, neonToLowerLane b = toLower b := forall_byte (by decide +kernel)

/-! ## Padding -/

theorem le_roundUp {N : ℕ} (hN : 0 < N) (n : ℕ) : n ≤ roundUp N n := by
  have h := Nat.div_add_mod n N
  have h2 := Nat.mod_lt n hN
  rw [Nat.mul_comm] at h
  unfold roundUp
  split <;> omega

theorem roundUp_mod {N : ℕ} (n : ℕ) : roundUp N n % N = 0 := by
  rw [roundUp, ← Nat.add_mul]
  exact Nat.mul_mod_left _ _

theorem roundUp_pos {n : ℕ} (h : 0 < n) : 0 < roundUp 16 n := Nat.lt_of_lt_of_le h (le_roundUp (by decide) n)

theorem roundUp_le {n m : ℕ} (h : n ≤ 16 * m) : roundUp 16 n ≤ 16 * m := by
  unfold roundUp
  split <;> omega

theorem length_zeroPad {N : ℕ} (hN : 0 < N) (s : Bytes) : (zeroPad N s).length = roundUp N s.length := by
  have := le_roundUp hN s.length
  simp only [zeroPad, List.length_append, List.length_replicate]
  omega

/-! ## Masks -/

theorem getLsbD_movemask (a : Reg) (k : ℕ) :
    (movemaskEpi8 a).getLsbD k = (decide (k < 16) && decide (a.toList.getD k 0 ≥ 0x80)) := by
  unfold movemaskEpi8
  rw [BitVec.getLsbD_setWidth, BitVec.getLsbD_ofBoolListLE]
  by_cases hk : k < 16
  · simp [List.getD_eq_getElem?_getD, hk, show k < 32 by omega]
  · simp [List.getD_eq_getElem?_getD, hk]

theorem getLsbD_past (pos k : ℕ) (hk : k < 16) (mask : BitVec 32) (hpos : pos < 16) :
    (mask &&& (0xFFFF#32 <<< pos)).getLsbD k = (mask.getLsbD k && decide (pos ≤ k)) := by
  rw [BitVec.getLsbD_and, BitVec.getLsbD_shiftLeft]
  congr 1
  rw [show (0xFFFF#32) = (BitVec.allOnes 16).setWidth 32 by decide, BitVec.getLsbD_setWidth, BitVec.getLsbD_allOnes]
  by_cases h : pos ≤ k
  · simp [h, show k < 32 by omega, show ¬ k < pos by omega, show k - pos < 32 by omega, show k - pos < 16 by omega]
  · simp [h, show k < pos by omega]

/-- **The first set bit, one past it.** -/
theorem ffs32_eq {x : BitVec 32} {k : ℕ} (hk : k < 32) (hx : x.getLsbD k = true)
    (hlow : ∀ j < k, x.getLsbD j = false) : ffs32 x = k + 1 := by
  have h : (List.range 32).find? (fun k => x.getLsbD k) = some k :=
    List.find?_range_eq_some.2 ⟨hx, List.mem_range.2 hk, fun j hj => by rw [hlow j hj]; rfl⟩
  rw [ffs32, h]

end Fzx
