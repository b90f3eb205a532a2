import Fzx.Lib.Single
import Fzx.SimdBest
/-!
# ScoreBounds — every score is small and whole

A column costs at most 2 and a row earns at most 200, so cell `j` of row `r` stays between `-2 (j + 1)` and
`200 (r + 1)`, and so does every lane of the kernels, the padding lanes among them.  Nothing a scoring function holds
leaves `InRange`, where single precision adds and compares as the whole numbers do.
-/
namespace Fzx

open Lib Lib.Single

/-- `-∞`, or a whole number between `-3 * 1024` and `200 * 1024`. -/
def InRange : Score → Prop := Flt.Within (-3 * 1024) (200 * 1024)

/-- What a cell may hold in row `row` and column `j`. -/
def CellWithin (row j : ℕ) : Score → Prop := Flt.Within (-2 * ((j : ℤ) + 1)) (200 * ((row : ℤ) + 1))

theorem CellWithin.inRange {row j : ℕ} {x : Score} (h : CellWithin row j x) (hrow : row < kMatchMaxLen)
    (hj : j < kMatchMaxLen) : InRange x := by
  unfold kMatchMaxLen at *
  exact Flt.Within.mono h (by omega) (by omega)

theorem kScoreMatchConsecutive_bounds : (200 : ℤ) ≤ kScoreMatchConsecutive ∧ kScoreMatchConsecutive ≤ 200 := by decide

theorem kScoreGapTrailing_bounds : (-1 : ℤ) ≤ kScoreGapTrailing ∧ kScoreGapTrailing ≤ 0 := by decide

/-- A finite summand moves both bounds. -/
theorem within_add_fin {lo hi a b lo' hi' : ℤ} {x : Score} (h : Flt.Within lo hi x) {v : ℤ} (hv : a ≤ v ∧ v ≤ b)
    (hlo : lo' ≤ lo + a) (hhi : hi + b ≤ hi') : Flt.Within lo' hi' (x + .fin v) :=
  (h.add (show Flt.Within a b (.fin v) from hv)).mono hlo hhi

/-! ## matchRow -/

/-- `matchRow`, stopped after `k` cells. -/
def MatchStruct.matchRowTo (ms : MatchStruct) (row : ℕ) (currD currM lastD lastM : Row) (k : ℕ) : RowState :=
  let gapScore : Score := .fin (if (row : ℤ) = ms.mNeedleLen - 1 then kScoreGapTrailing else kScoreGapInner)
  forRange k (ms.matchCell row gapScore lastD lastM) { prevScore := kScoreMin, currD, currM }

theorem matchRow_eq_matchRowTo (ms : MatchStruct) (row : ℕ) (currD currM lastD lastM : Row) :
    ms.matchRow row currD currM lastD lastM = ms.matchRowTo row currD currM lastD lastM ms.mHaystackLen.toNat := rfl

/-- The bonuses a `MatchStruct` holds. -/
def MatchStruct.BonusWithin (ms : MatchStruct) : Prop :=
  ∀ i, 0 ≤ ms.mMatchBonus.getD i 0 ∧ ms.mMatchBonus.getD i 0 ≤ 180

theorem precomputeBonusFrom_within : ∀ (lastCh : UInt8) (haystack : Bytes) (i : ℕ),
    0 ≤ (precomputeBonusFrom lastCh haystack).getD i 0 ∧ (precomputeBonusFrom lastCh haystack).getD i 0 ≤ 180
  | _, [], _ => by simp [precomputeBonusFrom]
  | lastCh, ch :: _, 0 => kBonusStates_bounds (kBonusIndex ch) lastCh
  | _, ch :: haystack, i + 1 => precomputeBonusFrom_within ch haystack i

theorem bonusWithin_new (needle haystack : Bytes) : (MatchStruct.new needle haystack).BonusWithin := by
  intro i
  unfold MatchStruct.new
  split_ifs
  · simp
  · exact precomputeBonusFrom_within _ haystack i

/-- The row above holds cells of its own row, where there is one. -/
def LastWithin (n row : ℕ) (lastD lastM : Row) : Prop :=
  ∀ r, row = r + 1 → ∀ j < n, CellWithin r j (lastD j) ∧ CellWithin r j (lastM j)

section Rows

variable {ms : MatchStruct} (hb : ms.BonusWithin)
include hb

/-- **A cell stays within its bounds**, the row above and the running maximum within theirs. -/
theorem matchCell_within {n row k : ℕ} {gap : ℤ} (hgap : -2 ≤ gap ∧ gap ≤ 0) {lastD lastM : Row} {s : RowState}
    (hlast : LastWithin n row lastD lastM) (hk : k < n)
    (hprev : Flt.Within (-2 * (k : ℤ)) (200 * ((row : ℤ) + 1)) s.prevScore) :
    ∃ x y, CellWithin row k x ∧ CellWithin row k y ∧
      ms.matchCell row (.fin gap) lastD lastM k s =
        { prevScore := y, currD := Function.update s.currD k x, currM := Function.update s.currM k y } := by
  have hgapped : CellWithin row k (s.prevScore + .fin gap) := within_add_fin hprev hgap (by omega) (by omega)
  have hmin : CellWithin row k kScoreMin := trivial
  unfold MatchStruct.matchCell
  split_ifs with hhit hrow hcol
  · -- the first row
    have hx : CellWithin row k (.fin ((k : ℤ) * kScoreGapLeading) + .fin (ms.mMatchBonus.getD k 0)) := by
      have := hb k
      change -2 * ((k : ℤ) + 1) ≤ (k : ℤ) * -1 + _ ∧ (k : ℤ) * -1 + _ ≤ 200 * ((row : ℤ) + 1)
      omega
    exact ⟨_, _, hx, Flt.Within.max Flt.stdMax_ofBot hx hgapped, rfl⟩
  · -- below it, from the row above and the column before
    obtain ⟨r, rfl⟩ := Nat.exists_eq_succ_of_ne_zero hrow
    obtain ⟨hD, hM⟩ := hlast r rfl (k - 1) (by omega)
    have hx : CellWithin (r + 1) k (Flt.stdMax (lastM (k - 1) + .fin (ms.mMatchBonus.getD k 0))
        (lastD (k - 1) + .fin kScoreMatchConsecutive)) :=
      Flt.Within.max Flt.stdMax_ofBot (within_add_fin hM (hb k) (by omega) (by push_cast; omega))
        (within_add_fin hD kScoreMatchConsecutive_bounds (by omega) (by push_cast; omega))
    exact ⟨_, _, hx, Flt.Within.max Flt.stdMax_ofBot hx hgapped, rfl⟩
  · exact ⟨_, _, hmin, Flt.Within.max Flt.stdMax_ofBot hmin hgapped, rfl⟩
  · exact ⟨_, _, hmin, hgapped, rfl⟩

/-- What `matchRow` has written after `k` cells. -/
structure RowWithin (row k : ℕ) (s : RowState) : Prop where
  cells : ∀ j < k, CellWithin row j (s.currD j) ∧ CellWithin row j (s.currM j)
  prevScore : Flt.Within (-2 * (k : ℤ)) (200 * ((row : ℤ) + 1)) s.prevScore

theorem matchRowTo_within {n row : ℕ} (currD currM : Row) {lastD lastM : Row} (hlast : LastWithin n row lastD lastM)
    {k : ℕ} (hk : k ≤ n) : RowWithin row k (ms.matchRowTo row currD currM lastD lastM k) := by
  refine forRange_inv (RowWithin row) _ k ⟨fun j hj => absurd hj (Nat.not_lt_zero j), trivial⟩ ?_
  rintro k' hk' s ⟨hcells, hprev⟩
  have hgap : -2 ≤ (if (row : ℤ) = ms.mNeedleLen - 1 then kScoreGapTrailing else kScoreGapInner) ∧
      (if (row : ℤ) = ms.mNeedleLen - 1 then kScoreGapTrailing else kScoreGapInner) ≤ 0 := by
    unfold kScoreGapTrailing kScoreGapInner
    split_ifs <;> omega
  obtain ⟨x, y, hx, hy, he⟩ := matchCell_within hb hgap hlast (by omega) hprev
  rw [he]
  refine ⟨fun j hj => ?_, hy.mono (by push_cast; omega) le_rfl⟩
  rcases Nat.lt_succ_iff_lt_or_eq.1 hj with hj | rfl
  · simpa [Function.update_of_ne (Nat.ne_of_lt hj)] using hcells j hj
  · simpa using ⟨hx, hy⟩

theorem matchRow_within {row : ℕ} (currD currM : Row) {lastD lastM : Row}
    (hlast : LastWithin ms.mHaystackLen.toNat row lastD lastM) :
    LastWithin ms.mHaystackLen.toNat (row + 1) (ms.matchRow row currD currM lastD lastM).currD
      (ms.matchRow row currD currM lastD lastM).currM := by
  rintro r hr j hj
  obtain rfl : row = r := by omega
  rw [matchRow_eq_matchRowTo]
  exact (matchRowTo_within hb currD currM hlast le_rfl).cells j hj

/-- The buffers of `score` after any number of rows. -/
theorem scoreRows_within (init : Buffers) (row : ℕ) :
    LastWithin ms.mHaystackLen.toNat row (forRange row ms.scoreRow init).lastD (forRange row ms.scoreRow init).lastM :=
  forRange_inv (fun row (b : Buffers) => LastWithin ms.mHaystackLen.toNat row b.lastD b.lastM) ms.scoreRow row
    (fun _ h => by omega) (fun _ _ b h => matchRow_within hb b.currD b.currM h)

/-- The last rows of `matchPositions` after any number of rows. -/
theorem tableRows_within (t : Tables) (row : ℕ) :
    LastWithin ms.mHaystackLen.toNat row (forRange row ms.tableRow t).lastD (forRange row ms.tableRow t).lastM :=
  forRange_inv (fun row (t : Tables) => LastWithin ms.mHaystackLen.toNat row t.lastD t.lastM) ms.tableRow row
    (fun _ h => by omega) (fun i _ t h => matchRow_within hb (t.d i) (t.m i) h)

end Rows

/-! ## score1 -/

/-- **`score1` loses 1 a column**, and a match starts at no less. -/
theorem score1Loop_within (lowerNeedle : UInt8) : ∀ (haystack : Bytes) (i : ℕ) (lastCh : UInt8) (score : Score),
    Flt.Within (1 - (i : ℤ)) 180 score →
    Flt.Within (1 - ((i + haystack.length : ℕ) : ℤ)) 180 (score1Loop lowerNeedle i lastCh score haystack)
  | [], _, _, _, h => h
  | ch :: haystack, i, lastCh, score, h => by
    have hgap : Flt.Within (1 - ((i + 1 : ℕ) : ℤ)) 180 (score + .fin kScoreGapTrailing) :=
      within_add_fin h kScoreGapTrailing_bounds (by omega) (by omega)
    have hns : Flt.Within (1 - ((i + 1 : ℕ) : ℤ)) 180
        (.fin ((i : ℤ) * kScoreGapLeading) + .fin (kBonusStates (kBonusIndex ch) lastCh)) := by
      have := kBonusStates_bounds (kBonusIndex ch) lastCh
      change 1 - ((i + 1 : ℕ) : ℤ) ≤ (i : ℤ) * -1 + _ ∧ (i : ℤ) * -1 + _ ≤ 180
      omega
    have hlen : i + (ch :: haystack).length = i + 1 + haystack.length := by rw [List.length_cons]; omega
    rw [score1Loop, hlen]
    refine score1Loop_within lowerNeedle haystack (i + 1) ch _ ?_
    dsimp only
    split_ifs
    · exact hns
    · exact hgap
    · exact hgap

/-! ## The kernels

A needle shorter than its kernel leaves padding lanes, whose gaps are what the window of the gap table holds there. -/

def Quad.toList {α : Type} (a : Quad α) : List α := [a.x0, a.x1, a.x2, a.x3]

/-- The lanes of a kernel's registers. -/
structure Regs where
  d : List Score
  m : List Score
  g : List Score

/-- `kernelLoop`, stopped after `i` columns. -/
def kernelLoopTo {G R : Type} (body : UInt8 → Kernel G R → Kernel G R) (haystack : Bytes) (g : G) (d m : R) (i : ℕ) :
    Kernel G R :=
  forRange i (fun i => body (haystack.getD i 0)) { lastCh := '/'.toUInt8, g, d, m }

/-- The registers of `scoreSSE` after `i` columns. -/
def scoreSSERegs (N : KernelSize) (needle haystack : Bytes) (i : ℕ) : Regs :=
  let kZero := set1Epi8 0
  let kGap2 := kGap2 needle.length
  let g := setSs (.fin 0)
  let nt := simdToLower (loadSi128 (zeroPad kCacheLine needle) 0)
  match N with
  | .n4 =>
    let nt := unpackloEpi8 nt kZero
    let n := epi32 (unpackloEpi16 nt kZero)
    let k := kernelLoopTo (scoreSSE4Body kGap2 n) haystack g kMin kMin i
    { d := k.d.toList, m := k.m.toList, g := k.g.toList }
  | .n8 =>
    let nt := unpackloEpi8 nt kZero
    let n1 := epi32 (unpackloEpi16 nt kZero)
    let n2 := epi32 (unpackhiEpi16 nt kZero)
    let k := kernelLoopTo (scoreSSE8Body kGap2 n1 n2) haystack g (kMin, kMin) (kMin, kMin) i
    { d := k.d.1.toList ++ k.d.2.toList, m := k.m.1.toList ++ k.m.2.toList, g := k.g.toList }
  | .n12 =>
    let nlo := unpackloEpi8 nt kZero
    let nhi := unpackhiEpi8 nt kZero
    let n1 := epi32 (unpackloEpi16 nlo kZero)
    let n2 := epi32 (unpackhiEpi16 nlo kZero)
    let n3 := epi32 (unpackloEpi16 nhi kZero)
    let k := kernelLoopTo (scoreSSE12Body kGap2 n1 n2 n3) haystack g (kMin, kMin, kMin) (kMin, kMin, kMin) i
    { d := k.d.1.toList ++ k.d.2.1.toList ++ k.d.2.2.toList, m := k.m.1.toList ++ k.m.2.1.toList ++ k.m.2.2.toList,
      g := k.g.toList }
  | .n16 =>
    let nlo := unpackloEpi8 nt kZero
    let nhi := unpackhiEpi8 nt kZero
    let n1 := epi32 (unpackloEpi16 nlo kZero)
    let n2 := epi32 (unpackhiEpi16 nlo kZero)
    let n3 := epi32 (unpackloEpi16 nhi kZero)
    let n4 := epi32 (unpackhiEpi16 nhi kZero)
    let k := kernelLoopTo (scoreSSE16Body kGap2 n1 n2 n3 n4) haystack g (kMin, kMin, kMin, kMin) (kMin, kMin, kMin, kMin) i
    { d := k.d.1.toList ++ k.d.2.1.toList ++ k.d.2.2.1.toList ++ k.d.2.2.2.toList,
      m := k.m.1.toList ++ k.m.2.1.toList ++ k.m.2.2.1.toList ++ k.m.2.2.2.toList, g := k.g.toList }

/-- The registers of `scoreNeon` after `i` columns. -/
def scoreNeonRegs (N : KernelSize) (needle haystack : Bytes) (i : ℕ) : Regs :=
  let kGap2 := kGap2 needle.length
  let g : Score := .fin 0
  let nt := neonToLower (loadSi128 (zeroPad kCacheLine needle) 0)
  match N with
  | .n4 =>
    let nl := vmovlU8 (vgetLowU8 nt)
    let n := vmovlU16 (vgetLowU16 nl)
    let k := kernelLoopTo (scoreNeon4Body kGap2 n) haystack g kMin kMin i
    { d := k.d.toList, m := k.m.toList, g := [k.g] }
  | .n8 =>
    let nl := vmovlU8 (vgetLowU8 nt)
    let n1 := vmovlU16 (vgetLowU16 nl)
    let n2 := vmovlU16 (vgetHighU16 nl)
    let k := kernelLoopTo (scoreNeon8Body kGap2 n1 n2) haystack g (kMin, kMin) (kMin, kMin) i
    { d := k.d.1.toList ++ k.d.2.toList, m := k.m.1.toList ++ k.m.2.toList, g := [k.g] }
  | .n12 =>
    let nl := vmovlU8 (vgetLowU8 nt)
    let nh := vmovlU8 (vgetHighU8 nt)
    let n1 := vmovlU16 (vgetLowU16 nl)
    let n2 := vmovlU16 (vgetHighU16 nl)
    let n3 := vmovlU16 (vgetLowU16 nh)
    let k := kernelLoopTo (scoreNeon12Body kGap2 n1 n2 n3) haystack g (kMin, kMin, kMin) (kMin, kMin, kMin) i
    { d := k.d.1.toList ++ k.d.2.1.toList ++ k.d.2.2.toList, m := k.m.1.toList ++ k.m.2.1.toList ++ k.m.2.2.toList,
      g := [k.g] }
  | .n16 =>
    let nl := vmovlU8 (vgetLowU8 nt)
    let nh := vmovlU8 (vgetHighU8 nt)
    let n1 := vmovlU16 (vgetLowU16 nl)
    let n2 := vmovlU16 (vgetHighU16 nl)
    let n3 := vmovlU16 (vgetLowU16 nh)
    let n4 := vmovlU16 (vgetHighU16 nh)
    let k := kernelLoopTo (scoreNeon16Body kGap2 n1 n2 n3 n4) haystack g (kMin, kMin, kMin, kMin) (kMin, kMin, kMin, kMin) i
    { d := k.d.1.toList ++ k.d.2.1.toList ++ k.d.2.2.1.toList ++ k.d.2.2.2.toList,
      m := k.m.1.toList ++ k.m.2.1.toList ++ k.m.2.2.1.toList ++ k.m.2.2.2.toList, g := [k.g] }

/-- The gap of every lane of a kernel whose last register starts at lane `o`. -/
def laneGap (o needleLen r : ℕ) : Score :=
  if r < o then .fin kScoreGapInner else kGapTable.getD (3 - (needleLen &&& 0b11) + (r - o) % 4) .nan

theorem laneGap_inner (o needleLen : ℕ) : ∀ r < o, laneGap o needleLen r = .fin kScoreGapInner :=
  fun _ h => if_pos h

theorem kGap2_eq_laneGap (o needleLen : ℕ) : kGap2 needleLen = quadAt (laneGap o needleLen) o := by
  simp [kGap2, loaduPs, quadAt, laneGap]

/-- The gap table holds gaps only. -/
theorem laneGap_within (o needleLen r : ℕ) : Flt.Within (-2) 0 (laneGap o needleLen r) := by
  have htable : ∀ i < 7, kGapTable.getD i .nan = .fin kScoreGapInner ∨ kGapTable.getD i .nan = .fin kScoreGapTrailing := by
    decide
  unfold laneGap
  split_ifs with h
  · exact ⟨le_rfl, by decide⟩
  · have hmod : (r - o) % 4 < 4 := Nat.mod_lt _ (by decide)
    rcases htable (3 - (needleLen &&& 0b11) + (r - o) % 4) (by omega) with e | e <;> rw [e]
    · exact ⟨le_rfl, by decide⟩
    · exact ⟨by decide, by decide⟩

/-- The run of a kernel's lanes, the padding lanes among them. -/
def laneRun (mx : Score → Score → Score) (o : ℕ) (needle haystack : Bytes) (i : ℕ) : Wide :=
  forRange i (fun i => Wide.step mx (needleAt needle) (laneGap o needle.length) (haystack.getD i 0)) Wide.init

/-- The lanes after `i` columns. -/
structure LanesWithin (i : ℕ) (w : Wide) : Prop where
  g : w.g = .fin (-(i : ℤ))
  d : ∀ r : ℕ, Flt.Within (-2 * (i : ℤ)) (200 * ((r : ℤ) + 1)) (w.d r)
  m : ∀ r : ℕ, Flt.Within (-2 * (i : ℤ)) (200 * ((r : ℤ) + 1)) (w.m r)

/-- **A column keeps every lane within its bounds**, whatever byte and gap the lane has. -/
theorem LanesWithin.step {mx : Score → Score → Score}
    (hmx : ∀ x y, mx (Flt.ofBot x) (Flt.ofBot y) = Flt.ofBot (max x y)) {needleAt : ℕ → UInt8} {gap : ℕ → Score}
    (hgap : ∀ r, Flt.Within (-2) 0 (gap r)) {i : ℕ} {w : Wide} (ch : UInt8) (h : LanesWithin i w) :
    LanesWithin (i + 1) (w.step mx needleAt gap ch) := by
  have hbonus := kBonusStates_bounds (kBonusIndex ch) w.lastCh
  have hd : ∀ r : ℕ, Flt.Within (-2 * ((i + 1 : ℕ) : ℤ)) (200 * ((r : ℤ) + 1)) ((w.step mx needleAt gap ch).d r) := by
    intro r
    simp only [Wide.step]
    split_ifs
    · -- the first lane takes the leading gap, the others the lane before
      cases r with
      | zero =>
        rw [shiftIn, h.g]
        change -2 * ((i + 1 : ℕ) : ℤ) ≤ -(i : ℤ) + _ ∧ -(i : ℤ) + _ ≤ 200 * (((0 : ℕ) : ℤ) + 1)
        omega
      | succ r =>
        exact Flt.Within.max hmx (within_add_fin (h.m r) hbonus (by omega) (by push_cast; omega))
          (within_add_fin (h.d r) kScoreMatchConsecutive_bounds (by omega) (by push_cast; omega))
    · trivial
  refine ⟨?_, hd, fun r => Flt.Within.max hmx (hd r) (((h.m r).add (hgap r)).mono (by push_cast; omega) (by omega))⟩
  simp only [Wide.step, h.g, Flt.fin_add_fin, kScoreGapLeading, Flt.fin.injEq]
  push_cast
  ring

theorem laneRun_within {mx : Score → Score → Score}
    (hmx : ∀ x y, mx (Flt.ofBot x) (Flt.ofBot y) = Flt.ofBot (max x y)) (o : ℕ) (needle haystack : Bytes) (i : ℕ) :
    LanesWithin i (laneRun mx o needle haystack i) :=
  forRange_inv LanesWithin _ i
    ⟨rfl, fun _ => (trivial : Flt.Within _ _ kScoreMin), fun _ => (trivial : Flt.Within _ _ kScoreMin)⟩
    (fun i _ _ h => h.step hmx (laneGap_within o needle.length) (haystack.getD i 0))

theorem kernelLoopTo_eq {G R : Type} {body : UInt8 → Kernel G R → Kernel G R} {mx : Score → Score → Score} {o : ℕ}
    {needle : Bytes} (haystack : Bytes) (k : Wide → Kernel G R) (g : G) (d m : R)
    (hinit : { lastCh := '/'.toUInt8, g, d, m } = k Wide.init)
    (hbody : ∀ ch w, body ch (k w) = k (w.step mx (needleAt needle) (laneGap o needle.length) ch)) (i : ℕ) :
    kernelLoopTo body haystack g d m i = k (laneRun mx o needle haystack i) := by
  rw [kernelLoopTo, hinit, laneRun]
  exact forRange_map k _ _ (fun i s => hbody _ s) _ _

/-- The registers of lanes, with what the kernel keeps of the leading gap. -/
def Wide.regs (N : ℕ) (g : List Score) (w : Wide) : Regs :=
  { d := (List.range N).map w.d, m := (List.range N).map w.m, g }

section Regs

variable {needle haystack : Bytes}

/-- **`scoreSSE` holds the run of the lanes.** -/
theorem scoreSSERegs_eq (N : KernelSize) (i : ℕ) :
    scoreSSERegs N needle haystack i = (laneRun Flt.ssMax (N.val - 4) needle haystack i).regs N.val
      [(laneRun Flt.ssMax (N.val - 4) needle haystack i).g, .fin 0, .fin 0, .fin 0] := by
  cases N with
  | n4 =>
    have hloop := kernelLoopTo_eq haystack (Wide.k4 setSs) (setSs (.fin 0)) kMin kMin rfl
      (fun ch w => scoreSSE4Body_wide (needleAt needle) (laneGap 0 needle.length) ch w) i
    simp only [scoreSSERegs, simdToLower_needle, unpack_0, kGap2_eq_laneGap 0]
    rw [hloop]
    rfl
  | n8 =>
    have hloop := kernelLoopTo_eq haystack (Wide.k8 setSs) (setSs (.fin 0)) (kMin, kMin) (kMin, kMin) rfl
      (fun ch w => scoreSSE8Body_wide (needleAt needle) (laneGap 4 needle.length) ch w (laneGap_inner 4 _)) i
    simp only [scoreSSERegs, simdToLower_needle, unpack_0, unpack_4, kGap2_eq_laneGap 4]
    rw [hloop]
    rfl
  | n12 =>
    have hloop := kernelLoopTo_eq haystack (Wide.k12 setSs) (setSs (.fin 0)) (kMin, kMin, kMin) (kMin, kMin, kMin) rfl
      (fun ch w => scoreSSE12Body_wide (needleAt needle) (laneGap 8 needle.length) ch w (laneGap_inner 8 _)) i
    simp only [scoreSSERegs, simdToLower_needle, unpack_0, unpack_4, unpack_8, kGap2_eq_laneGap 8]
    rw [hloop]
    rfl
  | n16 =>
    have hloop := kernelLoopTo_eq haystack (Wide.k16 setSs) (setSs (.fin 0)) (kMin, kMin, kMin, kMin) (kMin, kMin, kMin, kMin) rfl
      (fun ch w => scoreSSE16Body_wide (needleAt needle) (laneGap 12 needle.length) ch w (laneGap_inner 12 _)) i
    simp only [scoreSSERegs, simdToLower_needle, unpack_0, unpack_4, unpack_8, unpack_12, kGap2_eq_laneGap 12]
    rw [hloop]
    rfl

/-- **`scoreNeon` holds the run of the lanes**, with NEON's maximum. -/
theorem scoreNeonRegs_eq (N : KernelSize) (i : ℕ) :
    scoreNeonRegs N needle haystack i = (laneRun Flt.neonMax (N.val - 4) needle haystack i).regs N.val
      [(laneRun Flt.neonMax (N.val - 4) needle haystack i).g] := by
  cases N with
  | n4 =>
    have hloop := kernelLoopTo_eq haystack (Wide.k4 id) (.fin 0) kMin kMin rfl
      (fun ch w => scoreNeon4Body_wide (needleAt needle) (laneGap 0 needle.length) ch w) i
    simp only [scoreNeonRegs, neonToLower_needle, vmovl_0, kGap2_eq_laneGap 0]
    rw [hloop]
    rfl
  | n8 =>
    have hloop := kernelLoopTo_eq haystack (Wide.k8 id) (.fin 0) (kMin, kMin) (kMin, kMin) rfl
      (fun ch w => scoreNeon8Body_wide (needleAt needle) (laneGap 4 needle.length) ch w (laneGap_inner 4 _)) i
    simp only [scoreNeonRegs, neonToLower_needle, vmovl_0, vmovl_4, kGap2_eq_laneGap 4]
    rw [hloop]
    rfl
  | n12 =>
    have hloop := kernelLoopTo_eq haystack (Wide.k12 id) (.fin 0) (kMin, kMin, kMin) (kMin, kMin, kMin) rfl
      (fun ch w => scoreNeon12Body_wide (needleAt needle) (laneGap 8 needle.length) ch w (laneGap_inner 8 _)) i
    simp only [scoreNeonRegs, neonToLower_needle, vmovl_0, vmovl_4, vmovl_8, kGap2_eq_laneGap 8]
    rw [hloop]
    rfl
  | n16 =>
    have hloop := kernelLoopTo_eq haystack (Wide.k16 id) (.fin 0) (kMin, kMin, kMin, kMin) (kMin, kMin, kMin, kMin) rfl
      (fun ch w => scoreNeon16Body_wide (needleAt needle) (laneGap 12 needle.length) ch w (laneGap_inner 12 _)) i
    simp only [scoreNeonRegs, neonToLower_needle, vmovl_0, vmovl_4, vmovl_8, vmovl_12, kGap2_eq_laneGap 12]
    rw [hloop]
    rfl

/-- **`scoreSSE` returns a lane of its last `m` register**, so that what `scores_exact` says of the registers of
`scoreSSERegs` is about the kernel. -/
theorem scoreSSE_eq_regs (N : KernelSize) (hne : needle ≠ []) (hlt : needle.length < haystack.length)
    (hmax : haystack.length ≤ kMatchMaxLen) : scoreSSE N needle haystack =
      (scoreSSERegs N needle haystack haystack.length).m.getD (N.val - 4 + resultLane needle.length) .nan := by
  rw [scoreSSE, if_neg (by simp [hne]; omega), if_neg (by omega)]
  generalize resultLane needle.length = l
  cases N <;> simp only [scoreSSERegs, kernelLoop, kernelLoopTo, castInt_toNat hmax] <;> fin_cases l <;> rfl

/-- **`scoreNeon` returns a lane of its last `m` register**, those of `scoreNeonRegs` in `scores_exact`. -/
theorem scoreNeon_eq_regs (N : KernelSize) (hne : needle ≠ []) (hlt : needle.length < haystack.length)
    (hmax : haystack.length ≤ kMatchMaxLen) : scoreNeon N needle haystack =
      (scoreNeonRegs N needle haystack haystack.length).m.getD (N.val - 4 + resultLane needle.length) .nan := by
  rw [scoreNeon, if_neg (by simp [hne]; omega), if_neg (by omega)]
  generalize resultLane needle.length = l
  cases N <;> simp only [scoreNeonRegs, kernelLoop, kernelLoopTo, castInt_toNat hmax] <;> fin_cases l <;> rfl

end Regs

/-- Every lane in range. -/
def Regs.InRange (regs : Regs) : Prop := ∀ x ∈ regs.d ++ regs.m ++ regs.g, Fzx.InRange x

theorem LanesWithin.regs_inRange {N i : ℕ} {w : Wide} {g : List Score} (h : LanesWithin i w) (hN : N ≤ 16)
    (hi : i ≤ kMatchMaxLen) (hg : ∀ x ∈ g, x = w.g ∨ x = .fin 0) : (w.regs N g).InRange := by
  unfold kMatchMaxLen at hi
  have hlane : ∀ r < N, ∀ x : Score, Flt.Within (-2 * (i : ℤ)) (200 * ((r : ℤ) + 1)) x → InRange x :=
    fun r hr _ hx => hx.mono (by omega) (by omega)
  intro x hx
  simp only [Wide.regs, List.mem_append, List.mem_map, List.mem_range] at hx
  rcases hx with (⟨r, hr, rfl⟩ | ⟨r, hr, rfl⟩) | hx
  · exact hlane r hr _ (h.d r)
  · exact hlane r hr _ (h.m r)
  · rcases hg x hx with rfl | rfl
    · rw [h.g]
      exact ⟨by omega, by omega⟩
    · exact ⟨by decide, by decide⟩

theorem KernelSize.val_le (N : KernelSize) : N.val ≤ 16 := by cases N <;> decide

theorem scoreSSERegs_inRange (N : KernelSize) (needle haystack : Bytes) {i : ℕ} (hi : i ≤ kMatchMaxLen) :
    (scoreSSERegs N needle haystack i).InRange := by
  rw [scoreSSERegs_eq]
  exact (laneRun_within Flt.ssMax_ofBot _ needle haystack i).regs_inRange N.val_le hi (by simp)

theorem scoreNeonRegs_inRange (N : KernelSize) (needle haystack : Bytes) {i : ℕ} (hi : i ≤ kMatchMaxLen) :
    (scoreNeonRegs N needle haystack i).InRange := by
  rw [scoreNeonRegs_eq]
  exact (laneRun_within Flt.neonMax_ofBot _ needle haystack i).regs_inRange N.val_le hi (by simp)

/-! ## The values of a run -/

/-- Row `row` of `score`, stopped after `k` cells. -/
def scoreRowTo (init : Buffers) (needle haystack : Bytes) (row k : ℕ) : RowState :=
  let ms := MatchStruct.new needle haystack
  let b := forRange row ms.scoreRow init
  ms.matchRowTo row b.currD b.currM b.lastD b.lastM k

/-- Row `row` of `matchPositions`, stopped after `k` cells. -/
def tableRowTo (needle haystack : Bytes) (row k : ℕ) : RowState :=
  let ms := MatchStruct.new needle haystack
  let t := forRange row ms.tableRow
    { d := fun _ _ => .fin 0, m := fun _ _ => .fin 0, lastD := fun _ => .nan, lastM := fun _ => .nan }
  ms.matchRowTo row (t.d row) (t.m row) t.lastD t.lastM k

/-- The running value of `score1`, stopped after `i` rounds of its loop. -/
def score1To (needle haystack : Bytes) (i : ℕ) : Score :=
  let lowerNeedle := toLower (needle.getD 0 0)
  let ch := haystack.getD 0 0
  let score := if lowerNeedle = toLower ch then .fin (kBonusStates (kBonusIndex ch) '/'.toUInt8) else kScoreMin
  score1Loop lowerNeedle 1 ch score ((haystack.drop 1).take i)

/-- The cells written, and the running maximum. -/
def RowState.InRange (k : ℕ) (s : RowState) : Prop :=
  Fzx.InRange s.prevScore ∧ ∀ j < k, Fzx.InRange (s.currD j) ∧ Fzx.InRange (s.currM j)

theorem RowWithin.inRange {row k : ℕ} {s : RowState} (h : RowWithin row k s) (hrow : row < kMatchMaxLen)
    (hk : k ≤ kMatchMaxLen) : s.InRange k := by
  refine ⟨?_, fun j hj => ?_⟩
  · unfold kMatchMaxLen at *
    exact h.prevScore.mono (by omega) (by omega)
  · obtain ⟨hD, hM⟩ := h.cells j hj
    exact ⟨hD.inRange hrow (by omega), hM.inRange hrow (by omega)⟩

section Runs

variable {needle haystack : Bytes} (hlt : needle.length < haystack.length) (hmax : haystack.length ≤ kMatchMaxLen)
include hlt hmax

theorem scoreRowTo_inRange (init : Buffers) {row k : ℕ} (hrow : row < needle.length) (hk : k ≤ haystack.length) :
    (scoreRowTo init needle haystack row k).InRange k := by
  have hlast := scoreRows_within (bonusWithin_new needle haystack) init row
  rw [mHaystackLen_new hlt hmax, Int.toNat_natCast] at hlast
  exact (matchRowTo_within (bonusWithin_new needle haystack) _ _ hlast hk).inRange (by omega) (by omega)

theorem tableRowTo_inRange {row k : ℕ} (hrow : row < needle.length) (hk : k ≤ haystack.length) :
    (tableRowTo needle haystack row k).InRange k := by
  have hlast := tableRows_within (bonusWithin_new needle haystack)
    ⟨fun _ _ => .fin 0, fun _ _ => .fin 0, fun _ => .nan, fun _ => .nan⟩ row
  rw [mHaystackLen_new hlt hmax, Int.toNat_natCast] at hlast
  exact (matchRowTo_within (bonusWithin_new needle haystack) _ _ hlast hk).inRange (by omega) (by omega)

end Runs

/-- `score1` returns what `score1To` has at its end, the running values in `scores_exact`. -/
theorem score1_eq_score1To {needle haystack : Bytes} (hne : needle ≠ []) (hlen : 1 < haystack.length)
    (hmax : haystack.length ≤ kMatchMaxLen) :
    score1 needle haystack = score1To needle haystack (haystack.length - 1) := by
  have hemp : haystack.isEmpty = false := by cases haystack with
    | nil => cases hlen
    | cons => rfl
  rw [score1, if_neg (by simp [hne, hemp, hmax]), if_neg (by omega), score1To,
    List.take_of_length_le (by rw [List.length_drop])]

/-- The running value, and what the gap of the next round makes of it. -/
theorem score1To_inRange (needle : Bytes) {haystack : Bytes} (hmax : haystack.length ≤ kMatchMaxLen) (i : ℕ) :
    InRange (score1To needle haystack i) ∧ InRange (score1To needle haystack i + .fin kScoreGapTrailing) := by
  have hstart : Flt.Within (1 - ((1 : ℕ) : ℤ)) 180 (if toLower (needle.getD 0 0) = toLower (haystack.getD 0 0)
      then Flt.fin (kBonusStates (kBonusIndex (haystack.getD 0 0)) '/'.toUInt8) else kScoreMin) := by
    split_ifs
    · exact kBonusStates_bounds _ _
    · trivial
  have hlen : ((haystack.drop 1).take i).length ≤ haystack.length := by
    rw [List.length_take, List.length_drop]
    omega
  have h := score1Loop_within (toLower (needle.getD 0 0)) ((haystack.drop 1).take i) 1 (haystack.getD 0 0) _ hstart
  unfold kMatchMaxLen at hmax
  exact ⟨h.mono (by omega) (by omega),
    within_add_fin h kScoreGapTrailing_bounds (by omega) (by omega)⟩

/-! ## Single precision -/

theorem InRange.fits {x : Score} (h : InRange x) : Fits x := by
  cases x with
  | fin v =>
    obtain ⟨hlo, hhi⟩ := h
    change v.natAbs < 2 ^ 24
    omega
  | nan | negInf | posInf => trivial

theorem InRange.add_fits {x y : Score} (hx : InRange x) (hy : InRange y) : Fits (x + y) := by
  have h := Flt.Within.add hx hy
  cases hxy : x + y with
  | fin v =>
    rw [hxy] at h
    obtain ⟨hlo, hhi⟩ := h
    change v.natAbs < 2 ^ 24
    omega
  | nan | negInf | posInf => trivial

/-- What single precision does with the scores of a set: sums, the leading gap times a column as a summand, and
comparisons are those of the whole numbers. -/
structure SingleExact (P : Score → Prop) : Prop where
  add : ∀ x y, P x → P y → single x + single y = single (x + y)
  leading : ∀ i < kMatchMaxLen, ∀ b, P (.fin b) →
    single (.fin (i : ℤ)) * single (.fin kScoreGapLeading) + single (.fin b)
      = single (.fin ((i : ℤ) * kScoreGapLeading) + .fin b)
  lt : ∀ x y, P x → P y → (single x < single y ↔ Flt.lt x y = true)
  eq : ∀ x y, P x → P y → (single x == single y) = decide (x = y)
  eq_add : ∀ x y z, P x → P y → P z → (single x == single y + single z) = decide (x = y + z)

theorem inRange_exact : SingleExact InRange where
  add _ _ hx hy := single_add hx.fits hy.fits (hx.add_fits hy)
  leading i hi b hb := by
    obtain ⟨hlo, hhi⟩ := hb
    unfold kMatchMaxLen at hi
    exact single_mul_add (show (i : ℤ).natAbs < 2 ^ 24 by omega) (show (-1 : ℤ).natAbs < 2 ^ 24 by decide)
      (show b.natAbs < 2 ^ 24 by omega) (show ((i : ℤ) * -1).natAbs < 2 ^ 24 by omega)
      (show ((i : ℤ) * -1 + b).natAbs < 2 ^ 24 by omega)
  lt _ _ hx hy := single_lt hx.fits hy.fits hx.ne_nan hy.ne_nan
  eq _ _ hx hy := single_beq hx.fits hy.fits hx.ne_nan hy.ne_nan
  eq_add _ _ _ hx hy hz := by
    rw [single_add hy.fits hz.fits (hy.add_fits hz)]
    exact single_beq hx.fits (hy.add_fits hz) hx.ne_nan (Flt.Within.add hy hz).ne_nan

/-- What the scoring functions add to a score. -/
theorem constants_inRange : (∀ c ∈ [kScoreGapLeading, kScoreGapTrailing, kScoreGapInner, kScoreMatchConsecutive],
    InRange (.fin c)) ∧ ∀ state lastCh, InRange (.fin (kBonusStates state lastCh)) := by
  refine ⟨fun c hc => ?_, fun state lastCh => ?_⟩
  · have hbounds : ∀ c ∈ [kScoreGapLeading, kScoreGapTrailing, kScoreGapInner, kScoreMatchConsecutive],
        -3 * 1024 ≤ c ∧ c ≤ 200 * 1024 := by decide
    exact hbounds c hc
  · obtain ⟨hlo, hhi⟩ := kBonusStates_bounds state lastCh
    exact ⟨by omega, by omega⟩

/-- **Every value the scoring functions form is `-∞` or a small whole number**: the cells and running maxima of every row
of `score`, whatever its buffers hold, and of `matchPositions`; the running values of `score1`; and every lane of the
kernels after any number of columns.  **So single precision never rounds**: it adds them, and compares them, exactly. -/
theorem scores_exact (needle haystack : Bytes) (hlt : needle.length < haystack.length)
    (hmax : haystack.length ≤ kMatchMaxLen) :
    (∀ init, ∀ row < needle.length, ∀ k ≤ haystack.length, (scoreRowTo init needle haystack row k).InRange k) ∧
    (∀ row < needle.length, ∀ k ≤ haystack.length, (tableRowTo needle haystack row k).InRange k) ∧
    (∀ i, InRange (score1To needle haystack i) ∧ InRange (score1To needle haystack i + .fin kScoreGapTrailing)) ∧
    (∀ N, ∀ i ≤ haystack.length,
      (scoreSSERegs N needle haystack i).InRange ∧ (scoreNeonRegs N needle haystack i).InRange) ∧
    ((∀ c ∈ [kScoreGapLeading, kScoreGapTrailing, kScoreGapInner, kScoreMatchConsecutive], InRange (.fin c)) ∧
      ∀ state lastCh, InRange (.fin (kBonusStates state lastCh))) ∧
    SingleExact InRange :=
  ⟨fun init _ hrow _ hk => scoreRowTo_inRange hlt hmax init hrow hk,
    fun _ hrow _ hk => tableRowTo_inRange hlt hmax hrow hk, score1To_inRange needle hmax,
    fun N _ hi => ⟨scoreSSERegs_inRange N needle haystack (hi.trans hmax),
      scoreNeonRegs_inRange N needle haystack (hi.trans hmax)⟩,
    constants_inRange, inRange_exact⟩

/-- `abc` in `a/babc`: the last cell of the last row. -/
theorem scores_exact_babc :
    let init : Buffers := ⟨fun _ => .nan, fun _ => .nan, fun _ => .nan, fun _ => .nan⟩
    let s := scoreRowTo init [97, 98, 99] [97, 47, 98, 97, 98, 99] 2 6
    s.currM 5 = .fin 397 ∧ InRange (s.currM 5) := by
  have h := (scores_exact [97, 98, 99] [97, 47, 98, 97, 98, 99] (by decide) (by decide)).1
    ⟨fun _ => .nan, fun _ => .nan, fun _ => .nan, fun _ => .nan⟩ 2 (by decide) 6 (by decide)
  exact ⟨by decide +kernel, (h.2 5 (by decide)).2⟩

end Fzx
