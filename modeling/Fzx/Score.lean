import Fzx.Lib.Align
import Fzx.Lib.Flt
import Fzx.Lib.Loop
import Fzx.Bytes
/-!
# Score — the scalar scoring functions of score.cpp

Scores are whole numbers extended with the infinities (`Flt ℤ`): every finite value the code forms is whole and small,
so no float operation rounds.  A `ScoreArray` is a function of the index; nothing is assumed of what it holds before it
is written.  The precomputed tables are functions of their indices.
-/
namespace Fzx

open Lib

abbrev Score := Flt ℤ

def kMatchMaxLen : ℕ := 1024

def kScoreGapLeading : ℤ := -1
def kScoreGapTrailing : ℤ := -1
def kScoreGapInner : ℤ := -2
def kScoreMatchConsecutive : ℤ := 200
def kScoreMatchSlash : ℤ := 180
def kScoreMatchWord : ℤ := 160
def kScoreMatchCapital : ℤ := 140
def kScoreMatchDot : ℤ := 120

def kScoreMax : Score := .posInf
def kScoreMin : Score := .negInf

/-- The bonus of a character after `lastCh`, by the character's state. -/
def kBonusStates : ℕ → UInt8 → ℤ
  | 1, lastCh =>
    if lastCh = '/'.toUInt8 then kScoreMatchSlash
    else if lastCh = '-'.toUInt8 ∨ lastCh = '_'.toUInt8 ∨ lastCh = ' '.toUInt8 then kScoreMatchWord
    else if lastCh = '.'.toUInt8 then kScoreMatchDot
    else 0
  | 2, lastCh =>
    if lastCh = '/'.toUInt8 then kScoreMatchSlash
    else if lastCh = '-'.toUInt8 ∨ lastCh = '_'.toUInt8 ∨ lastCh = ' '.toUInt8 then kScoreMatchWord
    else if lastCh = '.'.toUInt8 then kScoreMatchDot
    else if lastCh ≥ 'a'.toUInt8 ∧ lastCh ≤ 'z'.toUInt8 then kScoreMatchCapital
    else 0
  | _, _ => 0

/-- The state of a character: 2 for capitals, 1 for small letters and digits, 0 for the rest. -/
def kBonusIndex (ch : UInt8) : ℕ :=
  if ch ≥ 'A'.toUInt8 ∧ ch ≤ 'Z'.toUInt8 then 2
  else if ch ≥ 'a'.toUInt8 ∧ ch ≤ 'z'.toUInt8 then 1
  else if ch ≥ '0'.toUInt8 ∧ ch ≤ '9'.toUInt8 then 1
  else 0

/-- The loop of `precomputeBonus` after `lastCh`. -/
def precomputeBonusFrom (lastCh : UInt8) : Bytes → List ℤ
  | [] => []
  | ch :: haystack => kBonusStates (kBonusIndex ch) lastCh :: precomputeBonusFrom ch haystack

def precomputeBonus (haystack : Bytes) : List ℤ := precomputeBonusFrom '/'.toUInt8 haystack

/-- `static_cast<int>` of a size. -/
def castInt (n : ℕ) : ℤ := (n : ℤ).bmod (2 ^ 32)

structure MatchStruct where
  mNeedleLen : ℤ
  mHaystackLen : ℤ
  mLowerNeedle : Bytes
  mLowerHaystack : Bytes
  mMatchBonus : List ℤ

/-- The constructor; the arrays stay empty where it leaves them unwritten. -/
def MatchStruct.new (needle haystack : Bytes) : MatchStruct :=
  if castInt haystack.length > kMatchMaxLen ∨ castInt needle.length > castInt haystack.length then
    { mNeedleLen := castInt needle.length, mHaystackLen := castInt haystack.length,
      mLowerNeedle := [], mLowerHaystack := [], mMatchBonus := [] }
  else
    { mNeedleLen := castInt needle.length, mHaystackLen := castInt haystack.length,
      mLowerNeedle := lower needle, mLowerHaystack := lower haystack, mMatchBonus := precomputeBonus haystack }

abbrev Row := ℕ → Score

/-- What the loop of `matchRow` carries. -/
structure RowState where
  prevScore : Score
  currD : Row
  currM : Row

/-- One round of `matchRow`'s loop. -/
def MatchStruct.matchCell (ms : MatchStruct) (row : ℕ) (gapScore : Score) (lastD lastM : Row) (i : ℕ) (s : RowState) :
    RowState :=
  if ms.mLowerNeedle.getD row 0 = ms.mLowerHaystack.getD i 0 then
    let score :=
      if row = 0 then .fin ((i : ℤ) * kScoreGapLeading) + .fin (ms.mMatchBonus.getD i 0)
      else if i ≠ 0 then
        -- a consecutive match does not stack with the bonus
        Flt.stdMax (lastM (i - 1) + .fin (ms.mMatchBonus.getD i 0)) (lastD (i - 1) + .fin kScoreMatchConsecutive)
      else kScoreMin
    let prevScore := Flt.stdMax score (s.prevScore + gapScore)
    { prevScore, currD := Function.update s.currD i score, currM := Function.update s.currM i prevScore }
  else
    let prevScore := s.prevScore + gapScore
    { prevScore, currD := Function.update s.currD i kScoreMin, currM := Function.update s.currM i prevScore }

def MatchStruct.matchRow (ms : MatchStruct) (row : ℕ) (currD currM lastD lastM : Row) : RowState :=
  let gapScore : Score := .fin (if (row : ℤ) = ms.mNeedleLen - 1 then kScoreGapTrailing else kScoreGapInner)
  forRange ms.mHaystackLen.toNat (ms.matchCell row gapScore lastD lastM) { prevScore := kScoreMin, currD, currM }

/-! ## score -/

/-- The two rolling buffers of `score`. -/
structure Buffers where
  lastD : Row
  lastM : Row
  currD : Row
  currM : Row

/-- One row, and the swap of the buffers. -/
def MatchStruct.scoreRow (ms : MatchStruct) (i : ℕ) (b : Buffers) : Buffers :=
  let r := ms.matchRow i b.currD b.currM b.lastD b.lastM
  { lastD := r.currD, lastM := r.currM, currD := b.lastD, currM := b.lastM }

/-- `score`, with what its uninitialised buffers happen to hold. -/
def scoreFrom (init : Buffers) (needle haystack : Bytes) : Score :=
  if needle.isEmpty then kScoreMin
  else if haystack.length > kMatchMaxLen ∨ needle.length > haystack.length then kScoreMin
  else if needle.length = haystack.length then kScoreMax
  else
    let ms := MatchStruct.new needle haystack
    let b := forRange ms.mNeedleLen.toNat ms.scoreRow init
    b.lastM (ms.mHaystackLen - 1).toNat

def score (needle haystack : Bytes) : Score :=
  scoreFrom { lastD := fun _ => .nan, lastM := fun _ => .nan, currD := fun _ => .nan, currM := fun _ => .nan } needle haystack

/-! ## score1 -/

/-- The loop of `score1` from index `i` on. -/
def score1Loop (lowerNeedle : UInt8) : ℕ → UInt8 → Score → Bytes → Score
  | _, _, score, [] => score
  | i, lastCh, score, ch :: haystack =>
    let score := score + .fin kScoreGapTrailing
    let score :=
      if lowerNeedle = toLower ch then
        let ns : Score := .fin ((i : ℤ) * kScoreGapLeading) + .fin (kBonusStates (kBonusIndex ch) lastCh)
        if Flt.lt score ns then ns else score
      else score
    score1Loop lowerNeedle (i + 1) ch score haystack

def score1 (needle haystack : Bytes) : Score :=
  if needle.isEmpty ∨ haystack.length > kMatchMaxLen ∨ haystack.isEmpty then kScoreMin
  else if haystack.length = 1 then kScoreMax
  else
    let lowerNeedle := toLower (needle.getD 0 0)
    let ch := haystack.getD 0 0
    let score := if lowerNeedle = toLower ch then .fin (kBonusStates (kBonusIndex ch) '/'.toUInt8) else kScoreMin
    score1Loop lowerNeedle 1 ch score (haystack.drop 1)

/-! ## matchPositions -/

/-- The tables of `matchPositions` and the rows last written. -/
structure Tables where
  d : ℕ → Row
  m : ℕ → Row
  lastD : Row
  lastM : Row

def MatchStruct.tableRow (ms : MatchStruct) (i : ℕ) (t : Tables) : Tables :=
  let r := ms.matchRow i (t.d i) (t.m i) t.lastD t.lastM
  { d := Function.update t.d i r.currD, m := Function.update t.m i r.currM, lastD := r.currD, lastM := r.currM }

/-- The inner loop of the backtrace: the last column below `j` that row `i` may end in. -/
def backtraceCell (d m : ℕ → Row) (i : ℕ) (matchRequired : Bool) : ℕ → Option ℕ
  | 0 => none
  | j + 1 =>
    if d i j ≠ kScoreMin ∧ (matchRequired = true ∨ d i j = m i j) then some j
    else backtraceCell d m i matchRequired j

/-- The backtrace over the rows below `i`, among the columns below `j`. -/
def backtrace (d m : ℕ → Row) : ℕ → ℕ → Bool → List Bool → List Bool
  | 0, _, _, positions => positions
  | i + 1, j, matchRequired, positions =>
    match backtraceCell d m i matchRequired j with
    | some j =>
      let matchRequired := decide (i ≠ 0 ∧ j ≠ 0 ∧ m i j = d (i - 1) (j - 1) + .fin kScoreMatchConsecutive)
      backtrace d m i j matchRequired (positions.set j true)
    | none => backtrace d m i 0 matchRequired positions

/-- `matchPositions`: the score and the marked positions, `none` where its assertion fails. -/
def matchPositions (needle haystack : Bytes) (positions : Option (List Bool)) : Option (Score × Option (List Bool)) :=
  if positions.any (fun p => p.length ≠ haystack.length) then none
  else if needle.isEmpty then some (kScoreMin, positions)
  else
    let ms := MatchStruct.new needle haystack
    if ms.mHaystackLen > kMatchMaxLen ∨ ms.mNeedleLen > ms.mHaystackLen then some (kScoreMin, positions)
    else if ms.mNeedleLen = ms.mHaystackLen then
      some (kScoreMax, positions.map (fun p => p.map (fun _ => true)))
    else
      let needleLen := ms.mNeedleLen.toNat
      let haystackLen := ms.mHaystackLen.toNat
      -- the tables start zeroed, the pointers to the last rows null
      let t := forRange needleLen ms.tableRow
        { d := fun _ _ => .fin 0, m := fun _ _ => .fin 0, lastD := fun _ => .nan, lastM := fun _ => .nan }
      some (t.m (needleLen - 1) (haystackLen - 1), positions.map (backtrace t.d t.m needleLen haystackLen false))

end Fzx
