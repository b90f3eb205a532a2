import Fzx.Score
/-!
# ScoreSimd — the vector kernels of score.cpp

A register of four floats or four 32-bit integers is a `Quad`, the lanes in memory order, and each intrinsic is its
documented operation on the lanes.  The kernels are written out as the source writes them, one loop body for each
needle size and instruction set; a body's state holds the registers `d1 …`, `m1 …` as tuples of quads.
-/
namespace Fzx

open Lib

structure Quad (α : Type) where
  x0 : α
  x1 : α
  x2 : α
  x3 : α
deriving DecidableEq, Repr

namespace Quad

variable {α β γ : Type}

def map₂ (f : α → β → γ) (a : Quad α) (b : Quad β) : Quad γ := ⟨f a.x0 b.x0, f a.x1 b.x1, f a.x2 b.x2, f a.x3 b.x3⟩

def lane (a : Quad α) : Fin 4 → α := ![a.x0, a.x1, a.x2, a.x3]

end Quad

abbrev Ps := Quad Score
abbrev Epi32 := Quad UInt32

/-! ## SSE2

`_mm_max_ps` is `Flt.ssMax` on the lanes.  A byte register is read as four little-endian integers by `epi32`, which
stands for the implicit reinterpretation between the byte and the 32-bit intrinsics. -/

def set1Ps (v : Score) : Ps := ⟨v, v, v, v⟩

def setSs (v : Score) : Ps := ⟨v, .fin 0, .fin 0, .fin 0⟩

def loaduPs (mem : List Score) (off : ℕ) : Ps :=
  ⟨mem.getD off .nan, mem.getD (off + 1) .nan, mem.getD (off + 2) .nan, mem.getD (off + 3) .nan⟩

def addPs (a b : Ps) : Ps := Quad.map₂ (· + ·) a b

def addSs (a b : Ps) : Ps := { a with x0 := a.x0 + b.x0 }

def maxPs (a b : Ps) : Ps := Quad.map₂ Flt.ssMax a b

/-- `_mm_shuffle_ps(a, b, _MM_SHUFFLE(z, y, x, w))`. -/
def shufflePs (a b : Ps) (z y x w : Fin 4) : Ps := ⟨a.lane w, a.lane x, b.lane y, b.lane z⟩

def moveSs (a b : Ps) : Ps := { a with x0 := b.x0 }

def set1Epi32 (v : UInt32) : Epi32 := ⟨v, v, v, v⟩

def cmpeqEpi32 (a b : Epi32) : Epi32 := Quad.map₂ (fun x y => if x = y then 0xFFFFFFFF else 0) a b

/-- `simd::blendv`: a lane of `a` where the mask's lane has its sign bit set, else of `b`. -/
def blendv (c : Epi32) (a b : Ps) : Ps :=
  Quad.map₂ (fun c v => if c ≥ 0x80000000 then v.1 else v.2) c (Quad.map₂ Prod.mk a b)

def extractv (r : Ps) (n : Fin 4) : Score := r.lane n

def unpackloEpi8 (a b : Reg) : Reg :=
  Vector.ofFn (fun j => if (j : ℕ) % 2 = 0 then a.get ⟨j / 2, by omega⟩ else b.get ⟨j / 2, by omega⟩)

def unpackhiEpi8 (a b : Reg) : Reg :=
  Vector.ofFn (fun j => if (j : ℕ) % 2 = 0 then a.get ⟨8 + j / 2, by omega⟩ else b.get ⟨8 + j / 2, by omega⟩)

def unpackloEpi16 (a b : Reg) : Reg :=
  Vector.ofFn (fun j => if (j : ℕ) % 4 < 2 then a.get ⟨j / 4 * 2 + j % 2, by omega⟩ else b.get ⟨j / 4 * 2 + j % 2, by omega⟩)

def unpackhiEpi16 (a b : Reg) : Reg :=
  Vector.ofFn (fun j =>
    if (j : ℕ) % 4 < 2 then a.get ⟨8 + (j / 4 * 2 + j % 2), by omega⟩ else b.get ⟨8 + (j / 4 * 2 + j % 2), by omega⟩)

def epi32 (r : Reg) : Epi32 :=
  let word (b0 b1 b2 b3 : UInt8) : UInt32 := b0.toUInt32 + b1.toUInt32 <<< 8 + b2.toUInt32 <<< 16 + b3.toUInt32 <<< 24
  ⟨word r[0] r[1] r[2] r[3], word r[4] r[5] r[6] r[7], word r[8] r[9] r[10] r[11], word r[12] r[13] r[14] r[15]⟩

/-! ## NEON -/

def vmovqN (v : Score) : Ps := ⟨v, v, v, v⟩

def vmaxq (a b : Ps) : Ps := Quad.map₂ Flt.neonMax a b

/-- `vextq_f32(a, b, 3)`. -/
def vextq3 (a b : Ps) : Ps := ⟨a.x3, b.x0, b.x1, b.x2⟩

/-- `vsetq_lane_f32(v, a, 0)`. -/
def vsetqLane0 (v : Score) (a : Ps) : Ps := { a with x0 := v }

/-- `vgetq_lane_f32(a, 0)`. -/
def vgetqLane0 (a : Ps) : Score := a.x0

def vceqq (a b : Epi32) : Epi32 := Quad.map₂ (fun x y => if x = y then 0xFFFFFFFF else 0) a b

/-- `vbslq_f32`, on masks of whole lanes. -/
def vbslq (c : Epi32) (a b : Ps) : Ps :=
  Quad.map₂ (fun c v => if c = 0xFFFFFFFF then v.1 else v.2) c (Quad.map₂ Prod.mk a b)

def neonToLower (r : Reg) : Reg := r.map neonToLowerLane

def vgetLowU8 (r : Reg) : Vector UInt8 8 := Vector.ofFn (fun j => r.get ⟨j, by omega⟩)
def vgetHighU8 (r : Reg) : Vector UInt8 8 := Vector.ofFn (fun j => r.get ⟨8 + j, by omega⟩)
def vmovlU8 (r : Vector UInt8 8) : Vector UInt16 8 := r.map UInt8.toUInt16
def vgetLowU16 (r : Vector UInt16 8) : Quad UInt16 := ⟨r[0], r[1], r[2], r[3]⟩
def vgetHighU16 (r : Vector UInt16 8) : Quad UInt16 := ⟨r[4], r[5], r[6], r[7]⟩
def vmovlU16 (r : Quad UInt16) : Epi32 := ⟨r.x0.toUInt32, r.x1.toUInt32, r.x2.toUInt32, r.x3.toUInt32⟩

/-! ## scoreSSE

The registers a loop carries, by their number, and the constants it reads. -/

def kGapTable : List Score :=
  [.fin kScoreGapInner, .fin kScoreGapInner, .fin kScoreGapTrailing, .fin kScoreGapInner,
   .fin kScoreGapInner, .fin kScoreGapInner, .fin kScoreGapTrailing]

/-- The state of a kernel's loop: `R` is its tuple of registers, `G` a register on SSE2 and a float on NEON. -/
structure Kernel (G R : Type) where
  lastCh : UInt8
  g : G
  d : R
  m : R

def kMin : Ps := set1Ps kScoreMin
def kGap1 : Ps := set1Ps (.fin kScoreGapInner)
def kConsecutive : Ps := set1Ps (.fin kScoreMatchConsecutive)
def kGapLeading : Ps := setSs (.fin kScoreGapLeading)

/-- `kGap2`: the trailing gap in the lane of the last needle byte. -/
def kGap2 (needleLen : ℕ) : Ps := loaduPs kGapTable (3 - (needleLen &&& 0b11))

def scoreSSE4Body (kGap2 : Ps) (n : Epi32) (ch : UInt8) (k : Kernel Ps Ps) : Kernel Ps Ps :=
  let bonus : Score := .fin (kBonusStates (kBonusIndex ch) k.lastCh)
  let r := set1Epi32 (toLower ch).toUInt32
  let b := set1Ps bonus
  let c := cmpeqEpi32 n r
  let s := maxPs (addPs k.m b) (addPs k.d kConsecutive)
  let s := shufflePs s s 2 1 0 3
  let s := moveSs s (addSs k.g b)
  let g := addSs k.g kGapLeading
  let d := blendv c s kMin
  let m := maxPs d (addPs k.m kGap2)
  { lastCh := ch, g, d, m }

def scoreSSE8Body (kGap2 : Ps) (n1 n2 : Epi32) (ch : UInt8) (k : Kernel Ps (Ps × Ps)) : Kernel Ps (Ps × Ps) :=
  let (d1, d2) := k.d
  let (m1, m2) := k.m
  let bonus : Score := .fin (kBonusStates (kBonusIndex ch) k.lastCh)
  let r := set1Epi32 (toLower ch).toUInt32
  let b := set1Ps bonus
  let c1 := cmpeqEpi32 n1 r
  let c2 := cmpeqEpi32 n2 r
  let s1 := maxPs (addPs m1 b) (addPs d1 kConsecutive)
  let s2 := maxPs (addPs m2 b) (addPs d2 kConsecutive)
  let s1 := shufflePs s1 s1 2 1 0 3
  let s2 := shufflePs s2 s2 2 1 0 3
  let s2 := moveSs s2 s1
  let s1 := moveSs s1 (addSs k.g b)
  let g := addSs k.g kGapLeading
  let d1 := blendv c1 s1 kMin
  let d2 := blendv c2 s2 kMin
  let m1 := maxPs d1 (addPs m1 kGap1)
  let m2 := maxPs d2 (addPs m2 kGap2)
  { lastCh := ch, g, d := (d1, d2), m := (m1, m2) }

def scoreSSE12Body (kGap2 : Ps) (n1 n2 n3 : Epi32) (ch : UInt8) (k : Kernel Ps (Ps × Ps × Ps)) :
    Kernel Ps (Ps × Ps × Ps) :=
  let (d1, d2, d3) := k.d
  let (m1, m2, m3) := k.m
  let bonus : Score := .fin (kBonusStates (kBonusIndex ch) k.lastCh)
  let r := set1Epi32 (toLower ch).toUInt32
  let b := set1Ps bonus
  let c1 := cmpeqEpi32 n1 r
  let c2 := cmpeqEpi32 n2 r
  let c3 := cmpeqEpi32 n3 r
  let s1 := maxPs (addPs m1 b) (addPs d1 kConsecutive)
  let s2 := maxPs (addPs m2 b) (addPs d2 kConsecutive)
  let s3 := maxPs (addPs m3 b) (addPs d3 kConsecutive)
  let s1 := shufflePs s1 s1 2 1 0 3
  let s2 := shufflePs s2 s2 2 1 0 3
  let s3 := shufflePs s3 s3 2 1 0 3
  let s3 := moveSs s3 s2
  let s2 := moveSs s2 s1
  let s1 := moveSs s1 (addSs k.g b)
  let g := addSs k.g kGapLeading
  let d1 := blendv c1 s1 kMin
  let d2 := blendv c2 s2 kMin
  let d3 := blendv c3 s3 kMin
  let m1 := maxPs d1 (addPs m1 kGap1)
  let m2 := maxPs d2 (addPs m2 kGap1)
  let m3 := maxPs d3 (addPs m3 kGap2)
  { lastCh := ch, g, d := (d1, d2, d3), m := (m1, m2, m3) }

def scoreSSE16Body (kGap2 : Ps) (n1 n2 n3 n4 : Epi32) (ch : UInt8) (k : Kernel Ps (Ps × Ps × Ps × Ps)) :
    Kernel Ps (Ps × Ps × Ps × Ps) :=
  let (d1, d2, d3, d4) := k.d
  let (m1, m2, m3, m4) := k.m
  let bonus : Score := .fin (kBonusStates (kBonusIndex ch) k.lastCh)
  let r := set1Epi32 (toLower ch).toUInt32
  let b := set1Ps bonus
  let c1 := cmpeqEpi32 n1 r
  let c2 := cmpeqEpi32 n2 r
  let c3 := cmpeqEpi32 n3 r
  let c4 := cmpeqEpi32 n4 r
  let s1 := maxPs (addPs m1 b) (addPs d1 kConsecutive)
  let s2 := maxPs (addPs m2 b) (addPs d2 kConsecutive)
  let s3 := maxPs (addPs m3 b) (addPs d3 kConsecutive)
  let s4 := maxPs (addPs m4 b) (addPs d4 kConsecutive)
  let s1 := shufflePs s1 s1 2 1 0 3
  let s2 := shufflePs s2 s2 2 1 0 3
  let s3 := shufflePs s3 s3 2 1 0 3
  let s4 := shufflePs s4 s4 2 1 0 3
  let s4 := moveSs s4 s3
  let s3 := moveSs s3 s2
  let s2 := moveSs s2 s1
  let s1 := moveSs s1 (addSs k.g b)
  let g := addSs k.g kGapLeading
  let d1 := blendv c1 s1 kMin
  let d2 := blendv c2 s2 kMin
  let d3 := blendv c3 s3 kMin
  let d4 := blendv c4 s4 kMin
  let m1 := maxPs d1 (addPs m1 kGap1)
  let m2 := maxPs d2 (addPs m2 kGap1)
  let m3 := maxPs d3 (addPs m3 kGap1)
  let m4 := maxPs d4 (addPs m4 kGap2)
  { lastCh := ch, g, d := (d1, d2, d3, d4), m := (m1, m2, m3, m4) }

/-- The sizes the kernels are instantiated at. -/
inductive KernelSize where
  | n4
  | n8
  | n12
  | n16
deriving DecidableEq, Repr

def KernelSize.val : KernelSize → ℕ
  | .n4 => 4
  | .n8 => 8
  | .n12 => 12
  | .n16 => 16

/-- `(needle.size() + 3) & 0b11`. -/
def resultLane (needleLen : ℕ) : Fin 4 := ⟨(needleLen + 3) &&& 0b11, Nat.lt_succ_of_le Nat.and_le_right⟩

/-- The loop over the haystack. -/
def kernelLoop {G R : Type} (body : UInt8 → Kernel G R → Kernel G R) (haystack : Bytes) (g : G) (d m : R) : Kernel G R :=
  forRange (castInt haystack.length).toNat (fun i => body (haystack.getD i 0)) { lastCh := '/'.toUInt8, g, d, m }

def scoreSSE (N : KernelSize) (needle haystack : Bytes) : Score :=
  if needle.isEmpty ∨ haystack.length > kMatchMaxLen ∨ needle.length > haystack.length then kScoreMin
  else if needle.length = haystack.length then kScoreMax
  else
    let kZero := set1Epi8 0
    let kGap2 := kGap2 needle.length
    let g := setSs (.fin 0) -- leading gap score
    let nt := simdToLower (loadSi128 (zeroPad kCacheLine needle) 0)
    match N with
    | .n4 =>
      let nt := unpackloEpi8 nt kZero
      let n := epi32 (unpackloEpi16 nt kZero)
      let k := kernelLoop (scoreSSE4Body kGap2 n) haystack g kMin kMin
      extractv k.m (resultLane needle.length)
    | .n8 =>
      let nt := unpackloEpi8 nt kZero
      let n1 := epi32 (unpackloEpi16 nt kZero)
      let n2 := epi32 (unpackhiEpi16 nt kZero)
      let k := kernelLoop (scoreSSE8Body kGap2 n1 n2) haystack g (kMin, kMin) (kMin, kMin)
      extractv k.m.2 (resultLane needle.length)
    | .n12 =>
      let nlo := unpackloEpi8 nt kZero
      let nhi := unpackhiEpi8 nt kZero
      let n1 := epi32 (unpackloEpi16 nlo kZero)
      let n2 := epi32 (unpackhiEpi16 nlo kZero)
      let n3 := epi32 (unpackloEpi16 nhi kZero)
      let k := kernelLoop (scoreSSE12Body kGap2 n1 n2 n3) haystack g (kMin, kMin, kMin) (kMin, kMin, kMin)
      extractv k.m.2.2 (resultLane needle.length)
    | .n16 =>
      let nlo := unpackloEpi8 nt kZero
      let nhi := unpackhiEpi8 nt kZero
      let n1 := epi32 (unpackloEpi16 nlo kZero)
      let n2 := epi32 (unpackhiEpi16 nlo kZero)
      let n3 := epi32 (unpackloEpi16 nhi kZero)
      let n4 := epi32 (unpackhiEpi16 nhi kZero)
      let k := kernelLoop (scoreSSE16Body kGap2 n1 n2 n3 n4) haystack g (kMin, kMin, kMin, kMin) (kMin, kMin, kMin, kMin)
      extractv k.m.2.2.2 (resultLane needle.length)

/-! ## scoreNeon -/

def scoreNeon4Body (kGap2 : Ps) (n : Epi32) (ch : UInt8) (k : Kernel Score Ps) : Kernel Score Ps :=
  let bonus : Score := .fin (kBonusStates (kBonusIndex ch) k.lastCh)
  let r := set1Epi32 (toLower ch).toUInt32
  let b := vmovqN bonus
  let c := vceqq n r
  let s := vmaxq (addPs k.m b) (addPs k.d kConsecutive)
  let s := vextq3 s s
  let s := vsetqLane0 (k.g + bonus) s
  let g := k.g + .fin kScoreGapLeading
  let d := vbslq c s kMin
  let m := vmaxq d (addPs k.m kGap2)
  { lastCh := ch, g, d, m }

def scoreNeon8Body (kGap2 : Ps) (n1 n2 : Epi32) (ch : UInt8) (k : Kernel Score (Ps × Ps)) : Kernel Score (Ps × Ps) :=
  let (d1, d2) := k.d
  let (m1, m2) := k.m
  let bonus : Score := .fin (kBonusStates (kBonusIndex ch) k.lastCh)
  let r := set1Epi32 (toLower ch).toUInt32
  let b := vmovqN bonus
  let c1 := vceqq n1 r
  let c2 := vceqq n2 r
  let s1 := vmaxq (addPs m1 b) (addPs d1 kConsecutive)
  let s2 := vmaxq (addPs m2 b) (addPs d2 kConsecutive)
  let s1 := vextq3 s1 s1
  let s2 := vextq3 s2 s2
  let s2 := vsetqLane0 (vgetqLane0 s1) s2
  let s1 := vsetqLane0 (k.g + bonus) s1
  let g := k.g + .fin kScoreGapLeading
  let d1 := vbslq c1 s1 kMin
  let d2 := vbslq c2 s2 kMin
  let m1 := vmaxq d1 (addPs m1 kGap1)
  let m2 := vmaxq d2 (addPs m2 kGap2)
  { lastCh := ch, g, d := (d1, d2), m := (m1, m2) }

def scoreNeon12Body (kGap2 : Ps) (n1 n2 n3 : Epi32) (ch : UInt8) (k : Kernel Score (Ps × Ps × Ps)) :
    Kernel Score (Ps × Ps × Ps) :=
  let (d1, d2, d3) := k.d
  let (m1, m2, m3) := k.m
  let bonus : Score := .fin (kBonusStates (kBonusIndex ch) k.lastCh)
  let r := set1Epi32 (toLower ch).toUInt32
  let b := vmovqN bonus
  let c1 := vceqq n1 r
  let c2 := vceqq n2 r
  let c3 := vceqq n3 r
  let s1 := vmaxq (addPs m1 b) (addPs d1 kConsecutive)
  let s2 := vmaxq (addPs m2 b) (addPs d2 kConsecutive)
  let s3 := vmaxq (addPs m3 b) (addPs d3 kConsecutive)
  let s1 := vextq3 s1 s1
  let s2 := vextq3 s2 s2
  let s3 := vextq3 s3 s3
  let s3 := vsetqLane0 (vgetqLane0 s2) s3
  let s2 := vsetqLane0 (vgetqLane0 s1) s2
  let s1 := vsetqLane0 (k.g + bonus) s1
  let g := k.g + .fin kScoreGapLeading
  let d1 := vbslq c1 s1 kMin
  let d2 := vbslq c2 s2 kMin
  let d3 := vbslq c3 s3 kMin
  let m1 := vmaxq d1 (addPs m1 kGap1)
  let m2 := vmaxq d2 (addPs m2 kGap1)
  let m3 := vmaxq d3 (addPs m3 kGap2)
  { lastCh := ch, g, d := (d1, d2, d3), m := (m1, m2, m3) }

def scoreNeon16Body (kGap2 : Ps) (n1 n2 n3 n4 : Epi32) (ch : UInt8) (k : Kernel Score (Ps × Ps × Ps × Ps)) :
    Kernel Score (Ps × Ps × Ps × Ps) :=
  let (d1, d2, d3, d4) := k.d
  let (m1, m2, m3, m4) := k.m
  let bonus : Score := .fin (kBonusStates (kBonusIndex ch) k.lastCh)
  let r := set1Epi32 (toLower ch).toUInt32
  let b := vmovqN bonus
  let c1 := vceqq n1 r
  let c2 := vceqq n2 r
  let c3 := vceqq n3 r
  let c4 := vceqq n4 r
  let s1 := vmaxq (addPs m1 b) (addPs d1 kConsecutive)
  let s2 := vmaxq (addPs m2 b) (addPs d2 kConsecutive)
  let s3 := vmaxq (addPs m3 b) (addPs d3 kConsecutive)
  let s4 := vmaxq (addPs m4 b) (addPs d4 kConsecutive)
  let s1 := vextq3 s1 s1
  let s2 := vextq3 s2 s2
  let s3 := vextq3 s3 s3
  let s4 := vextq3 s4 s4
  let s4 := vsetqLane0 (vgetqLane0 s3) s4
  let s3 := vsetqLane0 (vgetqLane0 s2) s3
  let s2 := vsetqLane0 (vgetqLane0 s1) s2
  let s1 := vsetqLane0 (k.g + bonus) s1
  let g := k.g + .fin kScoreGapLeading
  let d1 := vbslq c1 s1 kMin
  let d2 := vbslq c2 s2 kMin
  let d3 := vbslq c3 s3 kMin
  let d4 := vbslq c4 s4 kMin
  let m1 := vmaxq d1 (addPs m1 kGap1)
  let m2 := vmaxq d2 (addPs m2 kGap1)
  let m3 := vmaxq d3 (addPs m3 kGap1)
  let m4 := vmaxq d4 (addPs m4 kGap2)
  { lastCh := ch, g, d := (d1, d2, d3, d4), m := (m1, m2, m3, m4) }

def scoreNeon (N : KernelSize) (needle haystack : Bytes) : Score :=
  if needle.isEmpty ∨ haystack.length > kMatchMaxLen ∨ needle.length > haystack.length then kScoreMin
  else if needle.length = haystack.length then kScoreMax
  else
    let kGap2 := kGap2 needle.length
    let g : Score := .fin 0 -- leading gap score
    let nt := neonToLower (loadSi128 (zeroPad kCacheLine needle) 0)
    match N with
    | .n4 =>
      let nl := vmovlU8 (vgetLowU8 nt)
      let n := vmovlU16 (vgetLowU16 nl)
      let k := kernelLoop (scoreNeon4Body kGap2 n) haystack g kMin kMin
      extractv k.m (resultLane needle.length)
    | .n8 =>
      let nl := vmovlU8 (vgetLowU8 nt)
      let n1 := vmovlU16 (vgetLowU16 nl)
      let n2 := vmovlU16 (vgetHighU16 nl)
      let k := kernelLoop (scoreNeon8Body kGap2 n1 n2) haystack g (kMin, kMin) (kMin, kMin)
      extractv k.m.2 (resultLane needle.length)
    | .n12 =>
      let nl := vmovlU8 (vgetLowU8 nt)
      let nh := vmovlU8 (vgetHighU8 nt)
      let n1 := vmovlU16 (vgetLowU16 nl)
      let n2 := vmovlU16 (vgetHighU16 nl)
      let n3 := vmovlU16 (vgetLowU16 nh)
      let k := kernelLoop (scoreNeon12Body kGap2 n1 n2 n3) haystack g (kMin, kMin, kMin) (kMin, kMin, kMin)
      extractv k.m.2.2 (resultLane needle.length)
    | .n16 =>
      let nl := vmovlU8 (vgetLowU8 nt)
      let nh := vmovlU8 (vgetHighU8 nt)
      let n1 := vmovlU16 (vgetLowU16 nl)
      let n2 := vmovlU16 (vgetHighU16 nl)
      let n3 := vmovlU16 (vgetLowU16 nh)
      let n4 := vmovlU16 (vgetHighU16 nh)
      let k := kernelLoop (scoreNeon16Body kGap2 n1 n2 n3 n4) haystack g (kMin, kMin, kMin, kMin) (kMin, kMin, kMin, kMin)
      extractv k.m.2.2.2 (resultLane needle.length)

end Fzx
