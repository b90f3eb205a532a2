import Fzx.ScoreBest
import Fzx.ScoreSimd
/-!
# SimdBest — the vector kernels return the scalar score

Eight loop bodies, one recurrence.  `Wide` holds every lane of a kernel's registers in one row, `Wide.step` is the
recurrence a column makes on it, and each body is that step read through its registers (`scoreSSE4Body_wide` and its
siblings).  After `i` columns lane `r` of a run holds row `r` of the score tables at column `i - 1` (`wide_run`), so the
result lane holds the best score.
-/
namespace Fzx

open Lib

/-! ## The recurrence of the lanes -/

structure Wide where
  lastCh : UInt8
  g : Score
  d : ℕ → Score
  m : ℕ → Score

/-- A row of lanes moved up by one, `x` moved in. -/
def shiftIn (x : Score) (f : ℕ → Score) : ℕ → Score
  | 0 => x
  | r + 1 => f r

/-- What a column does to the lanes, with the kernel's maximum. -/
def Wide.step (mx : Score → Score → Score) (needleAt : ℕ → UInt8) (gap : ℕ → Score) (ch : UInt8) (w : Wide) : Wide :=
  let bonus : Score := .fin (kBonusStates (kBonusIndex ch) w.lastCh)
  let s := shiftIn (w.g + bonus) (fun r => mx (w.m r + bonus) (w.d r + .fin kScoreMatchConsecutive))
  let d := fun r => if needleAt r = toLower ch then s r else kScoreMin
  { lastCh := ch, g := w.g + .fin kScoreGapLeading, d, m := fun r => mx (d r) (w.m r + gap r) }

def Wide.init : Wide := { lastCh := '/'.toUInt8, g := .fin 0, d := fun _ => kScoreMin, m := fun _ => kScoreMin }

/-- Four lanes from `o` on. -/
def quadAt {α : Type} (f : ℕ → α) (o : ℕ) : Quad α := ⟨f o, f (o + 1), f (o + 2), f (o + 3)⟩

@[simp] theorem lane_quadAt {α : Type} (f : ℕ → α) (o : ℕ) (l : Fin 4) : (quadAt f o).lane l = f (o + l) := by
  fin_cases l <;> rfl

theorem addPs_quadAt (f g : ℕ → Score) (o : ℕ) : addPs (quadAt f o) (quadAt g o) = quadAt (fun r => f r + g r) o := rfl

theorem addPs_set1Ps (f : ℕ → Score) (v : Score) (o : ℕ) : addPs (quadAt f o) (set1Ps v) = quadAt (fun r => f r + v) o := rfl

theorem addPs_vmovqN (f : ℕ → Score) (v : Score) (o : ℕ) : addPs (quadAt f o) (vmovqN v) = quadAt (fun r => f r + v) o := rfl

theorem maxPs_quadAt (f g : ℕ → Score) (o : ℕ) :
    maxPs (quadAt f o) (quadAt g o) = quadAt (fun r => Flt.ssMax (f r) (g r)) o := rfl

theorem vmaxq_quadAt (f g : ℕ → Score) (o : ℕ) :
    vmaxq (quadAt f o) (quadAt g o) = quadAt (fun r => Flt.neonMax (f r) (g r)) o := rfl

/-! The rotated registers, each with the last lane of the register before it moved in. -/

theorem rotate_first (f : ℕ → Score) (b : Ps) :
    moveSs (shufflePs (quadAt f 0) (quadAt f 0) 2 1 0 3) b = quadAt (shiftIn b.x0 f) 0 := rfl

theorem rotate_next (x : Score) (f : ℕ → Score) (o : ℕ) :
    moveSs (shufflePs (quadAt f (o + 4)) (quadAt f (o + 4)) 2 1 0 3) (shufflePs (quadAt f o) (quadAt f o) 2 1 0 3)
      = quadAt (shiftIn x f) (o + 4) := rfl

theorem vext_first (x : Score) (f : ℕ → Score) :
    vsetqLane0 x (vextq3 (quadAt f 0) (quadAt f 0)) = quadAt (shiftIn x f) 0 := rfl

theorem vext_next (x : Score) (f : ℕ → Score) (o : ℕ) :
    vsetqLane0 (vgetqLane0 (vextq3 (quadAt f o) (quadAt f o))) (vextq3 (quadAt f (o + 4)) (quadAt f (o + 4)))
      = quadAt (shiftIn x f) (o + 4) := rfl

theorem addSs_setSs (u v : Score) : addSs (setSs u) (setSs v) = setSs (u + v) := rfl

theorem mask_sign (p : Prop) [Decidable p] : (if p then (0xFFFFFFFF : UInt32) else 0) ≥ 0x80000000 ↔ p := by
  by_cases h : p <;> simp [h]

theorem mask_ones (p : Prop) [Decidable p] : (if p then (0xFFFFFFFF : UInt32) else 0) = 0xFFFFFFFF ↔ p := by
  by_cases h : p <;> simp [h]

theorem toUInt32_inj (a b : UInt8) : a.toUInt32 = b.toUInt32 ↔ a = b := by
  rw [← UInt32.toNat_inj, UInt8.toNat_toUInt32, UInt8.toNat_toUInt32, UInt8.toNat_inj]

theorem blendv_cmpeq (n : ℕ → UInt8) (c : UInt8) (s : ℕ → Score) (o : ℕ) :
    blendv (cmpeqEpi32 (quadAt (fun r => (n r).toUInt32) o) (set1Epi32 c.toUInt32)) (quadAt s o) kMin
      = quadAt (fun r => if n r = c then s r else kScoreMin) o := by
  simp only [blendv, cmpeqEpi32, Quad.map₂, quadAt, set1Epi32, mask_sign, toUInt32_inj]
  rfl

theorem vbslq_vceqq (n : ℕ → UInt8) (c : UInt8) (s : ℕ → Score) (o : ℕ) :
    vbslq (vceqq (quadAt (fun r => (n r).toUInt32) o) (set1Epi32 c.toUInt32)) (quadAt s o) kMin
      = quadAt (fun r => if n r = c then s r else kScoreMin) o := by
  simp only [vbslq, vceqq, Quad.map₂, quadAt, set1Epi32, mask_ones, toUInt32_inj]
  rfl

/-! ## The bodies are the recurrence -/

def Wide.k4 {G : Type} (g : Score → G) (w : Wide) : Kernel G Ps :=
  { lastCh := w.lastCh, g := g w.g, d := quadAt w.d 0, m := quadAt w.m 0 }

def Wide.k8 {G : Type} (g : Score → G) (w : Wide) : Kernel G (Ps × Ps) :=
  { lastCh := w.lastCh, g := g w.g, d := (quadAt w.d 0, quadAt w.d 4), m := (quadAt w.m 0, quadAt w.m 4) }

def Wide.k12 {G : Type} (g : Score → G) (w : Wide) : Kernel G (Ps × Ps × Ps) :=
  { lastCh := w.lastCh, g := g w.g, d := (quadAt w.d 0, quadAt w.d 4, quadAt w.d 8),
    m := (quadAt w.m 0, quadAt w.m 4, quadAt w.m 8) }

def Wide.k16 {G : Type} (g : Score → G) (w : Wide) : Kernel G (Ps × Ps × Ps × Ps) :=
  { lastCh := w.lastCh, g := g w.g, d := (quadAt w.d 0, quadAt w.d 4, quadAt w.d 8, quadAt w.d 12),
    m := (quadAt w.m 0, quadAt w.m 4, quadAt w.m 8, quadAt w.m 12) }

theorem addPs_kGap1 {N : ℕ} {gap : ℕ → Score} (h : ∀ r < N, gap r = .fin kScoreGapInner) (f : ℕ → Score) (o : ℕ)
    (ho : o + 4 ≤ N) : addPs (quadAt f o) kGap1 = quadAt (fun r => f r + gap r) o := by
  simp only [addPs, kGap1, set1Ps, quadAt, Quad.map₂, h o (by omega), h (o + 1) (by omega), h (o + 2) (by omega),
    h (o + 3) (by omega)]

section Bodies

variable (needleAt : ℕ → UInt8) (gap : ℕ → Score) (ch : UInt8) (w : Wide)

/-- The needle's lanes. -/
abbrev lanes (needleAt : ℕ → UInt8) : ℕ → Epi32 := quadAt (fun r => (needleAt r).toUInt32)

/-- What moves into the first lane. -/
abbrev Wide.lead : Score := w.g + .fin (kBonusStates (kBonusIndex ch) w.lastCh)

theorem scoreSSE4Body_wide :
    scoreSSE4Body (quadAt gap 0) (lanes needleAt 0) ch (w.k4 setSs)
      = (w.step Flt.ssMax needleAt gap ch).k4 setSs := by
  simp only [scoreSSE4Body, Wide.k4, kConsecutive, kGapLeading, addPs_set1Ps, addPs_quadAt, maxPs_quadAt,
    rotate_first, blendv_cmpeq, addSs_setSs]
  rfl

theorem scoreSSE8Body_wide (h : ∀ r < 4, gap r = .fin kScoreGapInner) :
    scoreSSE8Body (quadAt gap 4) (lanes needleAt 0) (lanes needleAt 4) ch (w.k8 setSs)
      = (w.step Flt.ssMax needleAt gap ch).k8 setSs := by
  simp (disch := omega) only [scoreSSE8Body, Wide.k8, kConsecutive, kGapLeading, addPs_set1Ps, addPs_quadAt, maxPs_quadAt,
    rotate_first, rotate_next (w.lead ch), blendv_cmpeq, addSs_setSs, addPs_kGap1 h]
  rfl

theorem scoreSSE12Body_wide (h : ∀ r < 8, gap r = .fin kScoreGapInner) :
    scoreSSE12Body (quadAt gap 8) (lanes needleAt 0) (lanes needleAt 4) (lanes needleAt 8) ch (w.k12 setSs)
      = (w.step Flt.ssMax needleAt gap ch).k12 setSs := by
  simp (disch := omega) only [scoreSSE12Body, Wide.k12, kConsecutive, kGapLeading, addPs_set1Ps, addPs_quadAt, maxPs_quadAt,
    rotate_first, rotate_next (w.lead ch), blendv_cmpeq, addSs_setSs, addPs_kGap1 h]
  rfl

theorem scoreSSE16Body_wide (h : ∀ r < 12, gap r = .fin kScoreGapInner) :
    scoreSSE16Body (quadAt gap 12) (lanes needleAt 0) (lanes needleAt 4) (lanes needleAt 8) (lanes needleAt 12) ch
        (w.k16 setSs)
      = (w.step Flt.ssMax needleAt gap ch).k16 setSs := by
  simp (disch := omega) only [scoreSSE16Body, Wide.k16, kConsecutive, kGapLeading, addPs_set1Ps, addPs_quadAt, maxPs_quadAt,
    rotate_first, rotate_next (w.lead ch), blendv_cmpeq, addSs_setSs, addPs_kGap1 h]
  rfl

theorem scoreNeon4Body_wide :
    scoreNeon4Body (quadAt gap 0) (lanes needleAt 0) ch (w.k4 id)
      = (w.step Flt.neonMax needleAt gap ch).k4 id := by
  simp only [scoreNeon4Body, Wide.k4, id, kConsecutive, addPs_set1Ps, addPs_vmovqN, addPs_quadAt, vmaxq_quadAt,
    vext_first, vbslq_vceqq]
  rfl

theorem scoreNeon8Body_wide (h : ∀ r < 4, gap r = .fin kScoreGapInner) :
    scoreNeon8Body (quadAt gap 4) (lanes needleAt 0) (lanes needleAt 4) ch (w.k8 id)
      = (w.step Flt.neonMax needleAt gap ch).k8 id := by
  simp (disch := omega) only [scoreNeon8Body, Wide.k8, id, kConsecutive, addPs_set1Ps, addPs_vmovqN, addPs_quadAt,
    vmaxq_quadAt, vext_first, vext_next (w.lead ch), vbslq_vceqq, addPs_kGap1 h]
  rfl

theorem scoreNeon12Body_wide (h : ∀ r < 8, gap r = .fin kScoreGapInner) :
    scoreNeon12Body (quadAt gap 8) (lanes needleAt 0) (lanes needleAt 4) (lanes needleAt 8) ch (w.k12 id)
      = (w.step Flt.neonMax needleAt gap ch).k12 id := by
  simp (disch := omega) only [scoreNeon12Body, Wide.k12, id, kConsecutive, addPs_set1Ps, addPs_vmovqN, addPs_quadAt,
    vmaxq_quadAt, vext_first, vext_next (w.lead ch), vbslq_vceqq, addPs_kGap1 h]
  rfl

theorem scoreNeon16Body_wide (h : ∀ r < 12, gap r = .fin kScoreGapInner) :
    scoreNeon16Body (quadAt gap 12) (lanes needleAt 0) (lanes needleAt 4) (lanes needleAt 8) (lanes needleAt 12) ch
        (w.k16 id)
      = (w.step Flt.neonMax needleAt gap ch).k16 id := by
  simp (disch := omega) only [scoreNeon16Body, Wide.k16, id, kConsecutive, addPs_set1Ps, addPs_vmovqN, addPs_quadAt,
    vmaxq_quadAt, vext_first, vext_next (w.lead ch), vbslq_vceqq, addPs_kGap1 h]
  rfl

end Bodies

/-! ## The needle's registers and the gap's -/

/-- The register the needle is loaded to, lowered. -/
def needleReg (needleAt : ℕ → UInt8) : Reg := Vector.ofFn (fun k => needleAt k)

section Unpack

variable (needleAt : ℕ → UInt8)

theorem unpack_0 : epi32 (unpackloEpi16 (unpackloEpi8 (needleReg needleAt) (set1Epi8 0)) (set1Epi8 0))
    = lanes needleAt 0 := by
  simp [epi32, unpackloEpi16, unpackloEpi8, needleReg, set1Epi8, quadAt]

theorem unpack_4 : epi32 (unpackhiEpi16 (unpackloEpi8 (needleReg needleAt) (set1Epi8 0)) (set1Epi8 0))
    = lanes needleAt 4 := by
  simp [epi32, unpackhiEpi16, unpackloEpi8, needleReg, set1Epi8, quadAt]

theorem unpack_8 : epi32 (unpackloEpi16 (unpackhiEpi8 (needleReg needleAt) (set1Epi8 0)) (set1Epi8 0))
    = lanes needleAt 8 := by
  simp [epi32, unpackloEpi16, unpackhiEpi8, needleReg, set1Epi8, quadAt]

theorem unpack_12 : epi32 (unpackhiEpi16 (unpackhiEpi8 (needleReg needleAt) (set1Epi8 0)) (set1Epi8 0))
    = lanes needleAt 12 := by
  simp [epi32, unpackhiEpi16, unpackhiEpi8, needleReg, set1Epi8, quadAt]

theorem vmovl_0 : vmovlU16 (vgetLowU16 (vmovlU8 (vgetLowU8 (needleReg needleAt)))) = lanes needleAt 0 := by
  simp [vmovlU16, vgetLowU16, vmovlU8, vgetLowU8, needleReg, quadAt]

theorem vmovl_4 : vmovlU16 (vgetHighU16 (vmovlU8 (vgetLowU8 (needleReg needleAt)))) = lanes needleAt 4 := by
  simp [vmovlU16, vgetHighU16, vmovlU8, vgetLowU8, needleReg, quadAt]

theorem vmovl_8 : vmovlU16 (vgetLowU16 (vmovlU8 (vgetHighU8 (needleReg needleAt)))) = lanes needleAt 8 := by
  simp [vmovlU16, vgetLowU16, vmovlU8, vgetHighU8, needleReg, quadAt]

theorem vmovl_12 : vmovlU16 (vgetHighU16 (vmovlU8 (vgetHighU8 (needleReg needleAt)))) = lanes needleAt 12 := by
  simp [vmovlU16, vgetHighU16, vmovlU8, vgetHighU8, needleReg, quadAt]

end Unpack

/-! ## The run of the recurrence -/

def needleAt (needle : Bytes) (r : ℕ) : UInt8 := toLower (needle.getD r 0)

def gapAt (needle : Bytes) (r : ℕ) : Score := .fin (rowGap needle r)

theorem getD_zeroPad (N : ℕ) (s : Bytes) (k : ℕ) : (zeroPad N s).getD k 0 = s.getD k 0 := by
  rcases Nat.lt_or_ge k s.length with h | h
  · rw [zeroPad, List.getD_append _ _ _ _ h]
  · rw [zeroPad, List.getD_append_right _ _ _ _ h, List.getD_eq_default _ _ h]
    rcases Nat.lt_or_ge (k - s.length) (roundUp N s.length - s.length) with h' | h'
    · rw [List.getD_replicate _ h']
    · rw [List.getD_eq_default _ _ (by simpa using h')]

theorem simdToLower_needle (needle : Bytes) :
    simdToLower (loadSi128 (zeroPad kCacheLine needle) 0) = needleReg (needleAt needle) := by
  rw [simdToLower_eq]
  ext k hk
  simp only [loadSi128, needleReg, needleAt, Vector.getElem_map, Vector.getElem_ofFn, getD_zeroPad, Nat.zero_add]

theorem neonToLower_needle (needle : Bytes) :
    neonToLower (loadSi128 (zeroPad kCacheLine needle) 0) = needleReg (needleAt needle) := by
  rw [← simdToLower_needle, simdToLower_eq, neonToLower]
  exact congrArg (fun f => Vector.map f _) (funext neonToLowerLane_eq)

/-- **The window of the gap table** has the trailing gap in the lane of the last needle byte. -/
theorem kGap2_eq {needle : Bytes} {o : ℕ} (ho : o % 4 = 0) (hlo : o < needle.length) (hhi : needle.length ≤ o + 4) :
    kGap2 needle.length = quadAt (gapAt needle) o := by
  have hand : needle.length &&& 0b11 = needle.length % 4 := Nat.and_two_pow_sub_one_eq_mod _ 2
  rw [kGap2, hand]
  simp only [quadAt, gapAt, rowGap]
  rcases (by omega : needle.length = o + 1 ∨ needle.length = o + 2 ∨ needle.length = o + 3 ∨ needle.length = o + 4)
    with h | h | h | h
  · rw [h, show (o + 1) % 4 = 1 by omega]; simp; rfl
  · rw [h, show (o + 2) % 4 = 2 by omega]; simp; rfl
  · rw [h, show (o + 3) % 4 = 3 by omega]; simp; rfl
  · rw [h, show (o + 4) % 4 = 0 by omega]; simp; rfl

theorem gapAt_inner {needle : Bytes} {N : ℕ} (h : N < needle.length) : ∀ r < N, gapAt needle r = .fin kScoreGapInner :=
  fun r hr => by rw [gapAt, rowGap, if_neg (by omega)]

def wideRun (mx : Score → Score → Score) (needle haystack : Bytes) (i : ℕ) : Wide :=
  forRange i (fun i => Wide.step mx (needleAt needle) (gapAt needle) (haystack.getD i 0)) Wide.init

/-- The last cell of a row before column `k`. -/
def prevD (d : ℕ → WithBot ℤ) : ℕ → WithBot ℤ
  | 0 => ⊥
  | k + 1 => d k

/-- **After `i` columns every lane holds its row of the tables at the last of them.** -/
structure WideAt (needle haystack : Bytes) (i : ℕ) (w : Wide) : Prop where
  lastCh : w.lastCh = if i = 0 then '/'.toUInt8 else haystack.getD (i - 1) 0
  g : w.g = .fin (kScoreGapLeading * i)
  d : ∀ r < needle.length, w.d r = Flt.ofBot (prevD ((scoreAlign needle haystack).tabD r) i)
  m : ∀ r < needle.length, w.m r = Flt.ofBot (prevM (rowGap needle r) ((scoreAlign needle haystack).tabD r) i)

theorem wideAt_init (needle haystack : Bytes) : WideAt needle haystack 0 Wide.init :=
  ⟨rfl, rfl, fun _ _ => rfl, fun _ _ => rfl⟩

theorem WideAt.step {mx : Score → Score → Score} (hmx : ∀ x y, mx (Flt.ofBot x) (Flt.ofBot y) = Flt.ofBot (max x y))
    {needle haystack : Bytes} {i : ℕ} {w : Wide} (h : WideAt needle haystack i w) :
    WideAt needle haystack (i + 1) (w.step mx (needleAt needle) (gapAt needle) (haystack.getD i 0)) := by
  have hb : kBonusStates (kBonusIndex (haystack.getD i 0)) w.lastCh = bonusAt haystack i := by rw [h.lastCh]; rfl
  have hd : ∀ r < needle.length, (w.step mx (needleAt needle) (gapAt needle) (haystack.getD i 0)).d r
      = Flt.ofBot ((scoreAlign needle haystack).tabD r i) := by
    intro r hr
    simp only [Wide.step, hb]
    by_cases hit : needleAt needle r = toLower (haystack.getD i 0)
    · have hh : (scoreAlign needle haystack).hit r i = true := scoreAlign_hit.2 hit
      rw [if_pos hit]
      cases r with
      | zero =>
        rw [shiftIn, h.g, Flt.fin_add_fin]
        simp only [Align.tabD, hh, if_true, Flt.ofBot_coe]
        rfl
      | succ r =>
        rw [shiftIn, h.d r (by omega), h.m r (by omega), Flt.ofBot_add_fin, Flt.ofBot_add_fin, hmx]
        cases i with
        | zero => rfl
        | succ k =>
          rw [Align.tabD_succ r k hh, prevD, prevM, rowGap, if_neg (by omega)]
          rfl
    · rw [if_neg hit]
      have hbot : (scoreAlign needle haystack).tabD r i = ⊥ := by
        by_contra hne
        exact hit (scoreAlign_hit.1 (Align.tabD_ne_bot_hit hne))
      rw [hbot]
      rfl
  refine ⟨rfl, ?_, hd, fun r hr => ?_⟩
  · simp only [Wide.step, h.g, Flt.fin_add_fin, Flt.fin.injEq]
    push_cast
    ring
  · have hm : (w.step mx (needleAt needle) (gapAt needle) (haystack.getD i 0)).m r
        = mx ((w.step mx (needleAt needle) (gapAt needle) (haystack.getD i 0)).d r) (w.m r + gapAt needle r) := rfl
    rw [hm, hd r hr, h.m r hr, gapAt, Flt.ofBot_add_fin, hmx, prevM, rowM_eq_max_prevM]

theorem wideAt_run {mx : Score → Score → Score} (hmx : ∀ x y, mx (Flt.ofBot x) (Flt.ofBot y) = Flt.ofBot (max x y))
    (needle haystack : Bytes) (i : ℕ) : WideAt needle haystack i (wideRun mx needle haystack i) :=
  forRange_inv (WideAt needle haystack) _ i (wideAt_init needle haystack) (fun _ _ _ h => h.step hmx)

/-- **The lane of the last needle byte holds the best score.** -/
theorem wideRun_best {mx : Score → Score → Score} (hmx : ∀ x y, mx (Flt.ofBot x) (Flt.ofBot y) = Flt.ofBot (max x y))
    {needle haystack : Bytes} (hne : needle ≠ []) (hh : 0 < haystack.length) :
    (wideRun mx needle haystack haystack.length).m (needle.length - 1) = Flt.ofBot (bestScore needle haystack) := by
  have hpos : 0 < needle.length := List.length_pos_iff.2 hne
  have hprev : ∀ d : ℕ → WithBot ℤ, prevM kScoreGapTrailing d haystack.length
      = Align.rowM kScoreGapTrailing d (haystack.length - 1) := by
    intro d
    obtain ⟨k, hk⟩ : ∃ k, haystack.length = k + 1 := ⟨haystack.length - 1, by omega⟩
    rw [hk]
    rfl
  rw [(wideAt_run hmx needle haystack haystack.length).m _ (by omega), rowGap, if_pos rfl, hprev,
    ← Align.bestWithin_eq_rowM]
  rfl

/-! ## The kernels -/

section Kernels

variable {needle haystack : Bytes}

/-- The loop of a kernel is the run of the recurrence, read through its registers. -/
theorem kernelLoop_eq {G R : Type} {body : UInt8 → Kernel G R → Kernel G R} {mx : Score → Score → Score}
    (k : Wide → Kernel G R) (g : G) (d m : R) (hmax : haystack.length ≤ kMatchMaxLen)
    (hinit : { lastCh := '/'.toUInt8, g, d, m } = k Wide.init)
    (hbody : ∀ ch w, body ch (k w) = k (w.step mx (needleAt needle) (gapAt needle) ch)) :
    kernelLoop body haystack g d m = k (wideRun mx needle haystack haystack.length) := by
  rw [kernelLoop, castInt_toNat hmax, hinit, wideRun]
  exact forRange_map k _ _ (fun i s => hbody _ s) _ _

theorem resultLane_val {o : ℕ} (ho : o % 4 = 0) (hlo : o < needle.length) (hhi : needle.length ≤ o + 4) :
    o + (resultLane needle.length : ℕ) = needle.length - 1 := by
  have hand : (needle.length + 3) &&& 0b11 = (needle.length + 3) % 4 := Nat.and_two_pow_sub_one_eq_mod _ 2
  simp only [resultLane, hand]
  omega

theorem scoreSSE_eq_best {N : KernelSize} (hlo : N.val - 4 < needle.length) (hhi : needle.length ≤ N.val)
    (hlt : needle.length < haystack.length) (hmax : haystack.length ≤ kMatchMaxLen) :
    scoreSSE N needle haystack = Flt.ofBot (bestScore needle haystack) := by
  have hne : needle ≠ [] := by rintro rfl; simp at hlo
  have hbest := wideRun_best Flt.ssMax_ofBot hne (show 0 < haystack.length by omega)
  rw [scoreSSE, if_neg (by simp [hne]; omega), if_neg (by omega)]
  cases N with
  | n4 =>
    have hloop := kernelLoop_eq (Wide.k4 setSs) (setSs (.fin 0)) kMin kMin hmax rfl
      (fun ch w => scoreSSE4Body_wide (needleAt needle) (gapAt needle) ch w)
    simp only [simdToLower_needle, unpack_0, kGap2_eq (o := 0) rfl hlo hhi, hloop, extractv, Wide.k4, lane_quadAt,
      resultLane_val (o := 0) rfl hlo hhi, hbest]
  | n8 =>
    have hloop := kernelLoop_eq (Wide.k8 setSs) (setSs (.fin 0)) (kMin, kMin) (kMin, kMin) hmax rfl
      (fun ch w => scoreSSE8Body_wide (needleAt needle) (gapAt needle) ch w (gapAt_inner hlo))
    simp only [simdToLower_needle, unpack_0, unpack_4, kGap2_eq (o := 4) rfl hlo hhi, hloop, extractv, Wide.k8,
      lane_quadAt, resultLane_val (o := 4) rfl hlo hhi, hbest]
  | n12 =>
    have hloop := kernelLoop_eq (Wide.k12 setSs) (setSs (.fin 0)) (kMin, kMin, kMin) (kMin, kMin, kMin) hmax rfl
      (fun ch w => scoreSSE12Body_wide (needleAt needle) (gapAt needle) ch w (gapAt_inner hlo))
    simp only [simdToLower_needle, unpack_0, unpack_4, unpack_8, kGap2_eq (o := 8) rfl hlo hhi, hloop, extractv,
      Wide.k12, lane_quadAt, resultLane_val (o := 8) rfl hlo hhi, hbest]
  | n16 =>
    have hloop := kernelLoop_eq (Wide.k16 setSs) (setSs (.fin 0)) (kMin, kMin, kMin, kMin) (kMin, kMin, kMin, kMin) hmax rfl
      (fun ch w => scoreSSE16Body_wide (needleAt needle) (gapAt needle) ch w (gapAt_inner hlo))
    simp only [simdToLower_needle, unpack_0, unpack_4, unpack_8, unpack_12, kGap2_eq (o := 12) rfl hlo hhi, hloop,
      extractv, Wide.k16, lane_quadAt, resultLane_val (o := 12) rfl hlo hhi, hbest]

theorem scoreNeon_eq_best {N : KernelSize} (hlo : N.val - 4 < needle.length) (hhi : needle.length ≤ N.val)
    (hlt : needle.length < haystack.length) (hmax : haystack.length ≤ kMatchMaxLen) :
    scoreNeon N needle haystack = Flt.ofBot (bestScore needle haystack) := by
  have hne : needle ≠ [] := by rintro rfl; simp at hlo
  have hbest := wideRun_best Flt.neonMax_ofBot hne (show 0 < haystack.length by omega)
  rw [scoreNeon, if_neg (by simp [hne]; omega), if_neg (by omega)]
  cases N with
  | n4 =>
    have hloop := kernelLoop_eq (Wide.k4 id) (.fin 0) kMin kMin hmax rfl
      (fun ch w => scoreNeon4Body_wide (needleAt needle) (gapAt needle) ch w)
    simp only [neonToLower_needle, vmovl_0, kGap2_eq (o := 0) rfl hlo hhi, hloop, extractv, Wide.k4, lane_quadAt,
      resultLane_val (o := 0) rfl hlo hhi, hbest]
  | n8 =>
    have hloop := kernelLoop_eq (Wide.k8 id) (.fin 0) (kMin, kMin) (kMin, kMin) hmax rfl
      (fun ch w => scoreNeon8Body_wide (needleAt needle) (gapAt needle) ch w (gapAt_inner hlo))
    simp only [neonToLower_needle, vmovl_0, vmovl_4, kGap2_eq (o := 4) rfl hlo hhi, hloop, extractv, Wide.k8,
      lane_quadAt, resultLane_val (o := 4) rfl hlo hhi, hbest]
  | n12 =>
    have hloop := kernelLoop_eq (Wide.k12 id) (.fin 0) (kMin, kMin, kMin) (kMin, kMin, kMin) hmax rfl
      (fun ch w => scoreNeon12Body_wide (needleAt needle) (gapAt needle) ch w (gapAt_inner hlo))
    simp only [neonToLower_needle, vmovl_0, vmovl_4, vmovl_8, kGap2_eq (o := 8) rfl hlo hhi, hloop, extractv,
      Wide.k12, lane_quadAt, resultLane_val (o := 8) rfl hlo hhi, hbest]
  | n16 =>
    have hloop := kernelLoop_eq (Wide.k16 id) (.fin 0) (kMin, kMin, kMin, kMin) (kMin, kMin, kMin, kMin) hmax rfl
      (fun ch w => scoreNeon16Body_wide (needleAt needle) (gapAt needle) ch w (gapAt_inner hlo))
    simp only [neonToLower_needle, vmovl_0, vmovl_4, vmovl_8, vmovl_12, kGap2_eq (o := 12) rfl hlo hhi, hloop,
      extractv, Wide.k16, lane_quadAt, resultLane_val (o := 12) rfl hlo hhi, hbest]

theorem scoreSSE_eq_scoreFrom {N : KernelSize} (init : Buffers) (hlo : N.val - 3 ≤ needle.length)
    (hhi : needle.length ≤ N.val) : scoreSSE N needle haystack = scoreFrom init needle haystack := by
  have hlo' : N.val - 4 < needle.length := by cases N <;> simp only [KernelSize.val] at * <;> omega
  have hne : needle ≠ [] := by rintro rfl; simp at hlo'
  by_cases hlong : haystack.length > kMatchMaxLen ∨ needle.length > haystack.length
  · rw [scoreSSE, if_pos (Or.inr hlong), scoreFrom, if_neg (by simpa using hne), if_pos hlong]
  have hshort : ¬ (needle.isEmpty = true ∨ haystack.length > kMatchMaxLen ∨ needle.length > haystack.length) :=
    fun h => h.elim (by simpa using hne) hlong
  by_cases heq : needle.length = haystack.length
  · rw [scoreSSE, if_neg hshort, if_pos heq, scoreFrom, if_neg (by simpa using hne), if_neg hlong, if_pos heq]
  · rw [not_or, not_lt, not_lt] at hlong
    rw [scoreSSE_eq_best hlo' hhi (by omega) hlong.1, scoreFrom_eq_best init hne (by omega) hlong.1]

theorem scoreNeon_eq_scoreFrom {N : KernelSize} (init : Buffers) (hlo : N.val - 3 ≤ needle.length)
    (hhi : needle.length ≤ N.val) : scoreNeon N needle haystack = scoreFrom init needle haystack := by
  have hlo' : N.val - 4 < needle.length := by cases N <;> simp only [KernelSize.val] at * <;> omega
  have hne : needle ≠ [] := by rintro rfl; simp at hlo'
  by_cases hlong : haystack.length > kMatchMaxLen ∨ needle.length > haystack.length
  · rw [scoreNeon, if_pos (Or.inr hlong), scoreFrom, if_neg (by simpa using hne), if_pos hlong]
  have hshort : ¬ (needle.isEmpty = true ∨ haystack.length > kMatchMaxLen ∨ needle.length > haystack.length) :=
    fun h => h.elim (by simpa using hne) hlong
  by_cases heq : needle.length = haystack.length
  · rw [scoreNeon, if_neg hshort, if_pos heq, scoreFrom, if_neg (by simpa using hne), if_neg hlong, if_pos heq]
  · rw [not_or, not_lt, not_lt] at hlong
    rw [scoreNeon_eq_best hlo' hhi (by omega) hlong.1, scoreFrom_eq_best init hne (by omega) hlong.1]

end Kernels

/-- **The vector kernels return the scalar score**, whatever the scalar one's buffers hold: on every haystack, for a
needle that fills the kernel's registers up to the last one. -/
theorem scoreSimd_eq_score (N : KernelSize) (needle haystack : Bytes) (init : Buffers) (hlo : N.val - 3 ≤ needle.length)
    (hhi : needle.length ≤ N.val) :
    scoreSSE N needle haystack = scoreFrom init needle haystack ∧
      scoreNeon N needle haystack = scoreFrom init needle haystack :=
  ⟨scoreSSE_eq_scoreFrom init hlo hhi, scoreNeon_eq_scoreFrom init hlo hhi⟩

/-- `abc` in `a/babc`: the needle's three bytes and a padding lane. -/
theorem scoreSimd_eq_score_babc :
    scoreSSE .n4 [97, 98, 99] [97, 47, 98, 97, 98, 99] = .fin 397 ∧
      scoreNeon .n4 [97, 98, 99] [97, 47, 98, 97, 98, 99] = .fin 397 := by
  have e : score [97, 98, 99] [97, 47, 98, 97, 98, 99] = .fin 397 := by decide +kernel
  have h := scoreSimd_eq_score .n4 [97, 98, 99] [97, 47, 98, 97, 98, 99]
    ⟨fun _ => .nan, fun _ => .nan, fun _ => .nan, fun _ => .nan⟩ (by decide) (by decide)
  exact ⟨h.1.trans e, h.2.trans e⟩

end Fzx
