import Fzx.ItemsCopies
import Fzx.ItemsPacked
import Fzx.Match
import Fzx.ScoreBest
import Fzx.ScoreSimd
/-!
# ItemsAccess — the vector loads and stores over items (match.cpp, strings.hpp, score.cpp)

Vector code reads and writes 16 or 32 bytes at a time, past the end of a string: into the padding of an item, the spare
bytes behind the string array, the rest of a needle's last cache line, or the rest of a local array.  A function's accesses
are given here as its code makes them, next to its value in the other modules.
-/
namespace Fzx

open Lib

/-- The memory that vector instructions address. -/
inductive Buffer where
  | strs
  | needle
  | lowerNeedle
  | lowerHaystack
  | gapTable
deriving DecidableEq

structure Access where
  buffer : Buffer
  off : ℕ
  bytes : ℕ
deriving DecidableEq

/-- The instructions that the vector code was compiled to. -/
inductive Simd where
  | sse2
  | avx2
  | neon
deriving DecidableEq

/-- The bytes that `toLower` takes at a time. -/
def Simd.step : Simd → ℕ
  | .sse2 | .neon => 16
  | .avx2 => 32

/-- `toLower(out, in, len)`, with `in` at `off`: a load and a store for each step begun. -/
def toLowerAccesses (simd : Simd) (out src : Buffer) (off len : ℕ) : List Access :=
  (List.range ((len + simd.step - 1) / simd.step)).flatMap (fun k =>
    [{ buffer := src, off := off + k * simd.step, bytes := simd.step },
      { buffer := out, off := k * simd.step, bytes := simd.step }])

/-- An `int` passed as a `size_t`. -/
def castSize (n : ℤ) : ℕ := (n % 2 ^ 64).toNat

/-- The constructor, with the haystack at `off` in the string array. -/
def MatchStruct.accesses (simd : Simd) (needle haystack : Bytes) (off : ℕ) : List Access :=
  if castInt haystack.length > kMatchMaxLen ∨ castInt needle.length > castInt haystack.length then []
  else
    toLowerAccesses simd .lowerNeedle .needle 0 (castSize (castInt needle.length)) ++
      toLowerAccesses simd .lowerHaystack .strs off (castSize (castInt haystack.length))

def scoreAccesses (simd : Simd) (needle haystack : Bytes) (off : ℕ) : List Access :=
  if needle.isEmpty then []
  else if haystack.length > kMatchMaxLen ∨ needle.length > haystack.length then []
  else if needle.length = haystack.length then []
  else MatchStruct.accesses simd needle haystack off

/-- `matchPositions`, called with as many positions as the haystack has bytes. -/
def matchPositionsAccesses (simd : Simd) (needle haystack : Bytes) (off : ℕ) : List Access :=
  if needle.isEmpty then [] else MatchStruct.accesses simd needle haystack off

/-- `scoreSSE` and `scoreNeon`, of any size: four gap costs of 4 bytes each, and 16 bytes of the needle. -/
def kernelAccesses (needle haystack : Bytes) : List Access :=
  if needle.isEmpty ∨ haystack.length > kMatchMaxLen ∨ needle.length > haystack.length then []
  else if needle.length = haystack.length then []
  else
    [{ buffer := .gapTable, off := 4 * (3 - (needle.length &&& 0b11)), bytes := 16 },
      { buffer := .needle, off := 0, bytes := 16 }]

/-- The blocks that `matchFuzzySSELoop` loads. -/
def matchFuzzySSELoopLoads (nd : UInt8) (ndIt : Bytes) (hs : Reg) (hsIt : List Reg) (pos : ℕ) : ℕ :=
  let mask := movemaskEpi8 (cmpeqEpi8 hs (set1Epi8 (toLower nd)))
  let mask := mask &&& (0xFFFF#32 <<< pos)
  if mask ≠ 0 then
    match ndIt with
    | [] => 0
    | nd' :: ndIt =>
      let pos := ffs32 mask &&& 15
      if pos ≠ 0 then matchFuzzySSELoopLoads nd' ndIt hs hsIt pos
      else match hsIt with
        | [] => 0
        | hs :: hsIt => matchFuzzySSELoopLoads nd' ndIt (simdToLower hs) hsIt 0 + 1
  else match hsIt with
    | [] => 0
    | hs :: hsIt => matchFuzzySSELoopLoads nd ndIt (simdToLower hs) hsIt 0 + 1
termination_by ndIt.length + hsIt.length

def matchFuzzySSELoads (needle haystack : Bytes) : ℕ :=
  match needle with
  | [] => 0
  | nd :: ndIt =>
    match loadBlocks (zeroPad 16 haystack) (roundUp 16 haystack.length / 16) with
    | [] => 0
    | hs :: hsIt => matchFuzzySSELoopLoads nd ndIt (simdToLower hs) hsIt 0 + 1

def matchFuzzySSEAccesses (needle haystack : Bytes) (off : ℕ) : List Access :=
  (List.range (matchFuzzySSELoads needle haystack)).map (fun b => { buffer := .strs, off := off + b * 16, bytes := 16 })

/-- Everything that matching and scoring an item at `off` may load and store by vector instructions. -/
def vectorAccesses (simd : Simd) (needle haystack : Bytes) (off : ℕ) : List Access :=
  (if simd = .neon then [] else matchFuzzySSEAccesses needle haystack off) ++ scoreAccesses simd needle haystack off ++
    matchPositionsAccesses simd needle haystack off ++ kernelAccesses needle haystack

/-- The bytes there are. -/
def Buffer.size (it : Items) (needle : Bytes) : Buffer → ℕ
  | .strs => it.mStrsCap + kOveralloc
  | .needle => roundUp kCacheLine needle.length
  | .lowerNeedle | .lowerHaystack => kMatchMaxLen
  | .gapTable => 4 * kGapTable.length

def Access.InBounds (size : Buffer → ℕ) (a : Access) : Prop := a.off + a.bytes ≤ size a.buffer

/-! ## Single functions -/

theorem mem_toLowerAccesses {simd : Simd} {out src : Buffer} {off len : ℕ} {a : Access} :
    a ∈ toLowerAccesses simd out src off len ↔ ∃ k, k * simd.step < len ∧
      (a = { buffer := src, off := off + k * simd.step, bytes := simd.step } ∨
        a = { buffer := out, off := k * simd.step, bytes := simd.step }) := by
  have hk : ∀ k, k < (len + simd.step - 1) / simd.step ↔ k * simd.step < len := fun k => by
    cases simd <;> simp only [Simd.step] <;> omega
  simp only [toLowerAccesses, List.mem_flatMap, List.mem_range, List.mem_cons, List.not_mem_nil, or_false, hk]

theorem matchFuzzySSELoopLoads_le (nd : UInt8) (ndIt : Bytes) (hs : Reg) (hsIt : List Reg) (pos : ℕ) :
    matchFuzzySSELoopLoads nd ndIt hs hsIt pos ≤ hsIt.length := by
  fun_induction matchFuzzySSELoopLoads nd ndIt hs hsIt pos <;> simp_all

theorem matchFuzzySSELoads_le (needle haystack : Bytes) :
    matchFuzzySSELoads needle haystack ≤ roundUp 16 haystack.length / 16 := by
  unfold matchFuzzySSELoads
  cases needle with
  | nil => exact Nat.zero_le _
  | cons nd ndIt =>
    have hlen : (loadBlocks (zeroPad 16 haystack) (roundUp 16 haystack.length / 16)).length =
        roundUp 16 haystack.length / 16 := by
      rw [loadBlocks, List.length_map, List.length_range]
    dsimp only
    cases hb : loadBlocks (zeroPad 16 haystack) (roundUp 16 haystack.length / 16) with
    | nil => exact Nat.zero_le _
    | cons hs hsIt =>
      rw [hb, List.length_cons] at hlen
      have := matchFuzzySSELoopLoads_le nd ndIt (simdToLower hs) hsIt 0
      dsimp only
      omega

theorem castInt_bounds (n : ℕ) : -2 ^ 31 ≤ castInt n ∧ castInt n < 2 ^ 31 ∧ castInt n ≤ n := by
  have hw : castInt n = (n : ℤ).bmod 4294967296 := congrArg (n : ℤ).bmod (by norm_num)
  have hbmod := Int.bmod_def n 4294967296
  push_cast at hbmod
  rw [hw]
  split at hbmod <;> omega

theorem castSize_of_nonneg {n : ℤ} (h0 : 0 ≤ n) (h : n < 2 ^ 64) : castSize n = n.toNat := by
  rw [castSize, Int.emod_eq_of_lt h0 h]

/-- A negative length is a huge size. -/
theorem lt_castSize {n : ℤ} (h0 : n < 0) (h : -2 ^ 31 ≤ n) : 2 ^ 63 < castSize n := by
  unfold castSize
  omega

/-- What an item's place is in its string array. -/
structure Placed (it : Items) (haystack : Bytes) (off : ℕ) : Prop where
  fits : haystack.length < 2 ^ 25
  room : off + roundUp 16 haystack.length ≤ it.mStrsCap

variable {it : Items} {needle haystack : Bytes} {off : ℕ} {simd : Simd} {a : Access}

theorem matchFuzzySSE_inBounds (hp : Placed it haystack off) (ha : a ∈ matchFuzzySSEAccesses needle haystack off) :
    a.InBounds (Buffer.size it needle) := by
  obtain ⟨b, hb, rfl⟩ := List.mem_map.1 ha
  have hb := List.mem_range.1 hb
  have hle := matchFuzzySSELoads_le needle haystack
  have hroom := hp.room
  show off + b * 16 + 16 ≤ it.mStrsCap + kOveralloc
  omega

/-- The needle is lowered up to a length that it has, the haystack up to its own. -/
theorem toLower_inBounds {m : ℕ} (hp : Placed it haystack off) (hm : m ≤ needle.length) (hmax : m ≤ kMatchMaxLen)
    (hhay : haystack.length ≤ kMatchMaxLen)
    (ha : a ∈ toLowerAccesses simd .lowerNeedle .needle 0 m ++
      toLowerAccesses simd .lowerHaystack .strs off haystack.length) : a.InBounds (Buffer.size it needle) := by
  have hneedle : ∀ k, k * simd.step < m → 0 + k * simd.step + simd.step ≤ roundUp kCacheLine needle.length := by
    intro k hk
    have hle := le_roundUp (by decide : 0 < kCacheLine) needle.length
    have hmod := roundUp_mod (N := kCacheLine) needle.length
    rw [kCacheLine] at hle hmod ⊢
    cases simd <;> simp only [Simd.step] at hk ⊢ <;> omega
  have hlocal : ∀ n k, n ≤ kMatchMaxLen → k * simd.step < n → k * simd.step + simd.step ≤ kMatchMaxLen := by
    intro n k hn hk
    rw [kMatchMaxLen] at hn ⊢
    cases simd <;> simp only [Simd.step] at hk ⊢ <;> omega
  have hspare : ∀ k, k * simd.step < haystack.length → off + k * simd.step + simd.step ≤ it.mStrsCap + kOveralloc := by
    intro k hk
    have hle := le_roundUp (by decide : 0 < 16) haystack.length
    have hroom := hp.room
    rw [kOveralloc]
    cases simd <;> simp only [Simd.step] at hk ⊢ <;> omega
  rcases List.mem_append.1 ha with ha | ha
  · obtain ⟨k, hk, rfl | rfl⟩ := mem_toLowerAccesses.1 ha
    · exact hneedle k hk
    · exact hlocal m k hmax hk
  · obtain ⟨k, hk, rfl | rfl⟩ := mem_toLowerAccesses.1 ha
    · exact hspare k hk
    · exact hlocal _ k hhay hk

theorem matchStruct_inBounds (hp : Placed it haystack off)
    (hneg : ¬ (haystack.length ≤ kMatchMaxLen ∧ castInt needle.length < 0))
    (ha : a ∈ MatchStruct.accesses simd needle haystack off) : a.InBounds (Buffer.size it needle) := by
  have hhay : castInt haystack.length = haystack.length := castInt_of_lt (by have := hp.fits; omega)
  unfold MatchStruct.accesses at ha
  split at ha
  · cases ha
  · rename_i hg
    rw [hhay, not_or, not_lt, not_lt] at hg
    have hmax : haystack.length ≤ kMatchMaxLen := by exact_mod_cast hg.1
    obtain ⟨-, hlt, hle⟩ := castInt_bounds needle.length
    have h0 : 0 ≤ castInt needle.length := not_lt.1 (fun h => hneg ⟨hmax, h⟩)
    rw [hhay, castSize_of_nonneg h0 (by omega), castSize_of_nonneg (by omega) (by have := hp.fits; omega),
      Int.toNat_natCast] at ha
    exact toLower_inBounds hp (by omega) (by omega) hmax ha

theorem kernel_inBounds (ha : a ∈ kernelAccesses needle haystack) : a.InBounds (Buffer.size it needle) := by
  unfold kernelAccesses at ha
  split at ha
  · cases ha
  · rename_i hg
    split at ha
    · cases ha
    · simp only [List.mem_cons, List.not_mem_nil, or_false] at ha
      rcases ha with rfl | rfl
      · show 4 * (3 - (needle.length &&& 0b11)) + 16 ≤ 4 * kGapTable.length
        rw [kGapTable]
        simp only [List.length_cons, List.length_nil]
        omega
      · have hpos : 0 < needle.length := by
          rw [not_or, List.isEmpty_iff] at hg
          exact List.length_pos_iff.2 hg.1
        have hle := le_roundUp (by decide : 0 < kCacheLine) needle.length
        have hmod := roundUp_mod (N := kCacheLine) needle.length
        show 0 + 16 ≤ roundUp kCacheLine needle.length
        rw [kCacheLine] at hle hmod ⊢
        omega

theorem score_inBounds (hp : Placed it haystack off) (ha : a ∈ scoreAccesses simd needle haystack off) :
    a.InBounds (Buffer.size it needle) := by
  unfold scoreAccesses at ha
  split at ha
  · cases ha
  · split at ha
    · cases ha
    · rename_i hg
      have hint : castInt needle.length = needle.length := castInt_of_lt (by have := hp.fits; omega)
      split at ha
      · cases ha
      · exact matchStruct_inBounds hp (fun h => by rw [hint] at h; omega) ha

/-- **Exactly when an item is matched and scored in bounds.** -/
theorem vectorAccesses_inBounds_iff (hp : Placed it haystack off) :
    (∀ a ∈ vectorAccesses simd needle haystack off, a.InBounds (Buffer.size it needle)) ↔
      ¬ (haystack.length ≤ kMatchMaxLen ∧ castInt needle.length < 0) := by
  constructor
  · rintro h ⟨hmax, hneg⟩
    have hne : ¬ needle.isEmpty = true := fun he => by
      rw [List.isEmpty_iff.1 he] at hneg
      exact absurd hneg (by decide)
    have hhay : castInt haystack.length = haystack.length := castInt_of_lt (by have := hp.fits; omega)
    have hguard : ¬ (castInt haystack.length > kMatchMaxLen ∨ castInt needle.length > castInt haystack.length) := by
      rw [hhay]
      omega
    have hhuge := lt_castSize hneg (castInt_bounds needle.length).1
    -- the store one past the end of the local array
    have hmem : (⟨.lowerNeedle, kMatchMaxLen / simd.step * simd.step, simd.step⟩ : Access) ∈
        matchPositionsAccesses simd needle haystack off := by
      rw [matchPositionsAccesses, if_neg hne, MatchStruct.accesses, if_neg hguard]
      refine List.mem_append_left _ (mem_toLowerAccesses.2 ⟨kMatchMaxLen / simd.step, ?_, .inr rfl⟩)
      exact Nat.lt_of_le_of_lt (Nat.div_mul_le_self _ _) (Nat.lt_trans (by decide) hhuge)
    have hin := h _ (List.mem_append_left _ (List.mem_append_right _ hmem))
    have hout : ¬ kMatchMaxLen / simd.step * simd.step + simd.step ≤ kMatchMaxLen := by
      cases simd <;> decide
    exact hout hin
  · intro hneg a ha
    rcases List.mem_append.1 ha with ha | ha
    · rcases List.mem_append.1 ha with ha | ha
      · rcases List.mem_append.1 ha with ha | ha
        · split at ha
          · cases ha
          · exact matchFuzzySSE_inBounds hp ha
        · exact score_inBounds hp ha
      · unfold matchPositionsAccesses at ha
        split at ha
        · cases ha
        · exact matchStruct_inBounds hp hneg ha
    · exact kernel_inBounds ha

/-! ## Every item of every instance -/

/-- **The layout of an instance's arrays.** -/
structure Layout (mem : Mem) (it : Items) : Prop where
  strsSize_mod : it.mStrsSize % 16 = 0
  strsSize_le : it.mStrsSize ≤ it.mStrsCap
  itemsSize_le : it.mItemsSize ≤ it.mItemsCap
  strsRoom : ∀ p, it.mStrs = some p → it.mStrsCap + kOveralloc ≤ (mem.strs.block p).size
  itemsRoom : ∀ p, it.mItems = some p → it.mItemsCap ≤ (mem.items.block p).size
  aligned : ∀ i, i < it.size → itemOffset (it.entry mem i) % 16 = 0
  inside : ∀ i, i < it.size → itemOffset (it.entry mem i) + roundUp 16 (itemSize (it.entry mem i)) ≤ it.mStrsSize
  disjoint : ∀ i j, i < j → j < it.size →
    itemOffset (it.entry mem i) + roundUp 16 (itemSize (it.entry mem i)) ≤ itemOffset (it.entry mem j)
  zeros : ∀ i, i < it.size →
    mem.strs.read it.mStrs (itemOffset (it.entry mem i) + itemSize (it.entry mem i))
        (roundUp 16 (itemSize (it.entry mem i)) - itemSize (it.entry mem i)) =
      List.replicate (roundUp 16 (itemSize (it.entry mem i)) - itemSize (it.entry mem i)) 0

theorem Holds.layout {mem : Mem} {it : Items} {v : List Bytes} (h : Holds mem it v)
    (hlt : ∀ i, i < v.length → offset v i < 2 ^ 38) : Layout mem it := by
  have hsize : it.size = v.length := h.itemsSize
  have hrep := h.represented_iff_offset_lt.2 hlt
  have hoff : ∀ i, i < it.size → ∃ hi : i < v.length, itemOffset (it.entry mem i) = offset v i ∧
      itemSize (it.entry mem i) = v[i].length := fun i hi => ⟨hsize ▸ hi, hrep i (hsize ▸ hi)⟩
  refine ⟨?_, h.strsCap, h.itemsCap, fun p hp => ?_, fun p hp => ?_, fun i hi => ?_, fun i hi => ?_, fun i j hij hj => ?_,
    fun i hi => ?_⟩
  · rw [h.strsSize]
    exact length_store_mod v
  · have hr := h.strsRoom
    rw [hp] at hr
    exact hr.2
  · have hr := h.itemsRoom
    rw [hp] at hr
    exact hr.2
  · obtain ⟨-, ho, -⟩ := hoff i hi
    rw [ho]
    exact length_store_mod _
  · obtain ⟨hiv, ho, hn⟩ := hoff i hi
    have hle := offset_add_le hiv
    rwa [← h.strsSize, ← ho, ← hn] at hle
  · obtain ⟨hiv, ho, hn⟩ := hoff i (Nat.lt_trans hij hj)
    obtain ⟨-, hoj, -⟩ := hoff j hj
    have hmono := offset_mono v hij
    rwa [offset_succ hiv, ← ho, ← hn, ← hoj] at hmono
  · obtain ⟨hiv, ho, hn⟩ := hoff i hi
    have hle := le_roundUp (by decide : 0 < 16) v[i].length
    have hr := h.read_item hiv
    rw [show roundUp 16 v[i].length = v[i].length + (roundUp 16 v[i].length - v[i].length) by omega, Heap.read_add,
      h.read_string hiv, zeroPad] at hr
    rw [ho, hn]
    exact List.append_cancel_left hr

theorem Holds.placed {mem : Mem} {it : Items} {v : List Bytes} (h : Holds mem it v) {i : ℕ} (hi : i < v.length) :
    Placed it v[i] (offset v i) := by
  have hcap := h.strsCap
  rw [h.strsSize] at hcap
  exact ⟨h.size_lt hi, Nat.le_trans (offset_add_le hi) hcap⟩

/-- **Vector accesses stay in bounds**: after any pushes and copies, the arrays of every instance are laid out as the
vector code expects, and every 16- or 32-byte load and store over any item and any needle lies inside its buffer, exactly
unless the item is one that is scored and the needle's size is negative as an `int`. -/
theorem layout_and_inBounds (mem : Mem) (actions : List Copies.Action)
    (hup : Meets Copies.step Copies.UpToDate (Copies.init mem) actions) (w : Copies)
    (hrun : run Copies.step (Copies.init mem) actions = some w) (htotal : (store w.history).length < 2 ^ 38) (c : ℕ) :
    Layout w.mem (w.instances c) ∧ ∀ (simd : Simd) (needle : Bytes) (i : ℕ), i < (w.instances c).size →
      ((∀ a ∈ vectorAccesses simd needle ((w.instances c).at w.mem i) (itemOffset ((w.instances c).entry w.mem i)),
          a.InBounds (Buffer.size (w.instances c) needle)) ↔
        ¬ (((w.instances c).at w.mem i).length ≤ kMatchMaxLen ∧ castInt needle.length < 0)) := by
  have hinv := Copies.inv_run hup hrun
  have h := hinv.holds c
  have hlt : ∀ i, i < (w.values c).length → offset (w.values c) i < 2 ^ 38 := fun i hi => hinv.offset_lt htotal hi
  refine ⟨h.layout hlt, fun simd needle i hi => ?_⟩
  have hiv : i < (w.values c).length := by
    rw [← h.itemsSize]
    exact hi
  rw [h.at_eq hiv (hlt i hiv), (h.represented_iff_offset_lt.2 hlt i hiv).1]
  exact vectorAccesses_inBounds_iff (h.placed hiv)

/-- A needle of one byte and an item of two, with 32 bytes at a time. -/
theorem layout_and_inBounds_ab : ∃ w, run Copies.step (Copies.init .empty)
      [.push 0 ⟨some (fun _ => 7), some (fun _ => 9)⟩ [97, 98], .copy 0 1] = some w ∧
    ∀ a ∈ vectorAccesses .avx2 [97] ((w.instances 1).at w.mem 0) (itemOffset ((w.instances 1).entry w.mem 0)),
      a.InBounds (Buffer.size (w.instances 1) [97]) := by
  have hl := layout_and_inBounds .empty [.push 0 ⟨some (fun _ => 7), some (fun _ => 9)⟩ [97, 98], .copy 0 1]
    (by decide +kernel) _ rfl (by decide +kernel) 1
  exact ⟨_, rfl, (hl.2 .avx2 [97] 0 (by decide +kernel)).2 (by decide +kernel)⟩

/-- **A needle of 2^31 bytes** passes the constructor's guard as a negative length, and is then lowered as a huge size. -/
theorem not_inBounds : ∃ w, run Copies.step (Copies.init .empty)
      [.push 0 ⟨some (fun _ => 0), some (fun _ => 0)⟩ [97]] = some w ∧ (w.instances 0).at w.mem 0 = [97] ∧
    ¬ ∀ a ∈ vectorAccesses .sse2 (List.replicate (2 ^ 31) 97) ((w.instances 0).at w.mem 0)
        (itemOffset ((w.instances 0).entry w.mem 0)),
      a.InBounds (Buffer.size (w.instances 0) (List.replicate (2 ^ 31) 97)) := by
  refine ⟨_, rfl, by decide +kernel, fun h => ?_⟩
  refine (vectorAccesses_inBounds_iff ⟨by decide +kernel, by decide +kernel⟩).1 h ⟨by decide +kernel, ?_⟩
  rw [List.length_replicate]
  decide +kernel

end Fzx
