import Fzx.Bytes
/-!
# Match — the matchers of match.cpp

`matchFuzzySSE` walks the zero-padded haystack 16 bytes at a time and finds the lower-cased needle as a subsequence of
the lower-cased storage (`matchFuzzySSE_iff`); `matchFuzzyNaive` compares each needle byte with itself and its
upper-case form.  The other matchers are the case-insensitive prefix, suffix, equality and infix tests.
-/
namespace Fzx

open Lib

def matchFuzzyNaive : Bytes → Bytes → Bool
  | [], _ => true
  | ch :: needle, it =>
    let uch := toUpper ch
    match it.dropWhile (fun c => c != ch && c != uch) with
    | [] => false
    | _ :: it => matchFuzzyNaive needle it

/-! ## The vector matcher -/

/-- The 16-byte blocks of a storage, as `_mm_load_si128` reads them one after the other. -/
def loadBlocks (mem : Bytes) (blocks : ℕ) : List Reg := (List.range blocks).map (fun b => loadSi128 mem (b * 16))

/-- The loop of `matchFuzzySSE`: the needle byte looked for, the needle bytes after it, the lowered block at hand, the
blocks after it, and the position in the block. -/
def matchFuzzySSELoop (nd : UInt8) (ndIt : Bytes) (hs : Reg) (hsIt : List Reg) (pos : ℕ) : Bool :=
  let mask := movemaskEpi8 (cmpeqEpi8 hs (set1Epi8 (toLower nd)))
  let mask := mask &&& (0xFFFF#32 <<< pos) -- mask out past positions
  if mask ≠ 0 then
    match ndIt with
    | [] => true
    | nd' :: ndIt =>
      let pos := ffs32 mask &&& 15 -- the last position of a block is masked out to 0
      if pos ≠ 0 then matchFuzzySSELoop nd' ndIt hs hsIt pos
      else match hsIt with
        | [] => false
        | hs :: hsIt => matchFuzzySSELoop nd' ndIt (simdToLower hs) hsIt 0
  else match hsIt with
    | [] => false
    | hs :: hsIt => matchFuzzySSELoop nd ndIt (simdToLower hs) hsIt 0
termination_by ndIt.length + hsIt.length

/-- `matchFuzzySSE`, with the haystack stored as `Items::push` stores it. -/
def matchFuzzySSE (needle haystack : Bytes) : Bool :=
  match needle with
  | [] => true
  | nd :: ndIt =>
    match loadBlocks (zeroPad 16 haystack) (roundUp 16 haystack.length / 16) with
    | [] => false
    | hs :: hsIt => matchFuzzySSELoop nd ndIt (simdToLower hs) hsIt 0

/-- What `matchFuzzy` was compiled to. -/
inductive Build where
  | scalar
  | sse2
  | neon
deriving DecidableEq, Repr

def matchFuzzy (b : Build) (needle haystack : Bytes) : Bool :=
  match b with
  | .sse2 => matchFuzzySSE needle haystack
  | .scalar | .neon => matchFuzzyNaive needle haystack

/-! ## The comparing matchers -/

/-- The loop the comparing matchers share: needle bytes against the bytes at `h`, up to the needle's end. -/
def cmpLower : Bytes → Bytes → Bool
  | [], _ => true
  | _ :: _, [] => false
  | n :: ns, h :: hs => if toLower n ≠ toLower h then false else cmpLower ns hs

def matchBegin (needle haystack : Bytes) : Bool :=
  if needle.length > haystack.length then false else cmpLower needle haystack

def matchEnd (needle haystack : Bytes) : Bool :=
  if needle.length > haystack.length then false
  else cmpLower needle (haystack.drop (haystack.length - needle.length))

def matchExact (needle haystack : Bytes) : Bool :=
  if needle.length ≠ haystack.length then false else cmpLower needle haystack

def matchSubstr (needle haystack : Bytes) : Bool :=
  if needle.isEmpty then true
  else if needle.length > haystack.length then false
  else (List.range (haystack.length - needle.length + 1)).any (fun h => cmpLower needle (haystack.drop h))

/-- For haystacks below 2^31 bytes, where the casts to `int` change nothing. -/
def matchSubstrIndex (needle haystack : Bytes) : ℤ :=
  if needle.isEmpty then 0
  else if needle.length > haystack.length then -1
  else match (List.range (haystack.length - needle.length + 1)).find? (fun i => cmpLower needle (haystack.drop i)) with
    | some i => i
    | none => -1

/-! ## The naive matcher -/

/-- What the naive matcher accepts for a needle byte. -/
def naiveHit (ch x : UInt8) : Bool := x == ch || x == toUpper ch

/-- What the vector matcher accepts for a needle byte. -/
def lowerHit (ch x : UInt8) : Bool := decide (toLower ch = toLower x)

theorem matchFuzzyNaive_eq_embeds : ∀ (needle haystack : Bytes),
    matchFuzzyNaive needle haystack = embeds naiveHit needle haystack
  | [], hs => by simp [matchFuzzyNaive]
  | ch :: needle, hs => by
    have hskip : ∀ x ∈ hs.takeWhile (fun c => c != ch && c != toUpper ch), naiveHit ch x = false := fun x hx => by
      have := List.mem_takeWhile_imp hx
      simpa [naiveHit] using this
    conv => rhs; rw [← List.takeWhile_append_dropWhile (p := fun c => c != ch && c != toUpper ch) (l := hs)]
    rw [embeds_append_of_forall_not _ _ _ _ _ hskip]
    simp only [matchFuzzyNaive]
    cases hd : hs.dropWhile (fun c => c != ch && c != toUpper ch) with
    | nil => rfl
    | cons y it =>
      have hy : naiveHit ch y = true := by
        have hne : hs.dropWhile (fun c => c != ch && c != toUpper ch) ≠ [] := by simp [hd]
        have := List.head_dropWhile_not (fun c => c != ch && c != toUpper ch) hne
        simp only [hd, List.head_cons] at this
        simpa [naiveHit, Classical.or_iff_not_imp_left] using this
      rw [embeds, if_pos hy]
      exact matchFuzzyNaive_eq_embeds needle it

/-! ## The vector matcher finds a subsequence of the storage -/

theorem toList_simdToLower (r : Reg) : (simdToLower r).toList = r.toList.map toLower := by
  rw [simdToLower_eq, Vector.toList_map]

theorem getD_cmpeqEpi8 (hs : Reg) (nd : UInt8) (k : ℕ) (hk : k < 16) :
    (cmpeqEpi8 hs (set1Epi8 nd)).toList.getD k 0 = if hs[k] = nd then 0xFF else 0 := by
  rw [List.getD_eq_getElem _ _ (by simpa using hk), Vector.getElem_toList, cmpeqEpi8, set1Epi8,
    Vector.getElem_zipWith, Vector.getElem_replicate]

/-- Bit `k` of the masked comparison: lane `k`, not before `pos`, holds the byte looked for. -/
theorem getLsbD_mask (hs : Reg) (nd : UInt8) (pos k : ℕ) (hpos : pos < 16) (hk : k < 16) :
    (movemaskEpi8 (cmpeqEpi8 hs (set1Epi8 nd)) &&& (0xFFFF#32 <<< pos)).getLsbD k
      = (decide (hs[k] = nd) && decide (pos ≤ k)) := by
  rw [getLsbD_past pos k hk _ hpos, getLsbD_movemask, getD_cmpeqEpi8 hs nd k hk]
  by_cases h : hs[k] = nd <;> simp [h, hk]

theorem getLsbD_mask_high (a : Reg) (m : BitVec 32) (k : ℕ) (hk : 16 ≤ k) :
    (movemaskEpi8 a &&& m).getLsbD k = false := by
  rw [BitVec.getLsbD_and, getLsbD_movemask]
  simp [show ¬ k < 16 by omega]

/-- **What one comparison of a block says**: either no lane from `pos` on holds the byte, or the mask's first bit is
the first such lane. -/
theorem mask_cases (hs : Reg) (nd : UInt8) (pos : ℕ) (hpos : pos < 16) :
    let mask := movemaskEpi8 (cmpeqEpi8 hs (set1Epi8 nd)) &&& (0xFFFF#32 <<< pos)
    (mask = 0 ∧ ∀ x ∈ hs.toList.drop pos, x ≠ nd) ∨
    (mask ≠ 0 ∧ ∃ k, ∃ _ : k < 16, ffs32 mask = k + 1 ∧ ∃ pre, hs.toList.drop pos = pre ++ nd :: hs.toList.drop (k + 1)
      ∧ ∀ x ∈ pre, x ≠ nd) := by
  intro mask
  by_cases h : ∃ k, ∃ hk : k < 16, pos ≤ k ∧ hs[k] = nd
  · obtain ⟨hk, hpk, he⟩ := Nat.find_spec h
    have hmin : ∀ j, j < Nat.find h → ∀ hj : j < 16, ¬ (pos ≤ j ∧ hs[j] = nd) := fun j hlt hj hc =>
      Nat.find_min h hlt ⟨hj, hc⟩
    generalize Nat.find h = k at hk hpk he hmin
    have hbit : mask.getLsbD k = true := by
      rw [getLsbD_mask hs nd pos k hpos hk]; simp [he, hpk]
    refine .inr ⟨fun h0 => by simp [h0] at hbit, k, hk, ffs32_eq (by omega) hbit (fun j hj => ?_), ?_⟩
    · rw [getLsbD_mask hs nd pos j hpos (by omega)]
      have := hmin j hj (by omega)
      simp only [Bool.and_eq_false_iff, decide_eq_false_iff_not]
      tauto
    · have hlen : hs.toList.length = 16 := Vector.length_toList
      have hdrop : hs.toList.drop k = nd :: hs.toList.drop (k + 1) := by
        rw [List.drop_eq_getElem_cons (by omega), Vector.getElem_toList, he]
      refine ⟨(hs.toList.drop pos).take (k - pos), ?_, fun x hx => ?_⟩
      · conv => lhs; rw [← List.take_append_drop (k - pos) (hs.toList.drop pos)]
        rw [List.drop_drop, show pos + (k - pos) = k by omega, hdrop]
      · obtain ⟨j, hj, rfl⟩ := List.getElem_of_mem hx
        simp only [List.length_take, List.length_drop, hlen] at hj
        rw [List.getElem_take, List.getElem_drop, Vector.getElem_toList]
        exact fun hc => hmin (pos + j) (by omega) (by omega) ⟨by omega, hc⟩
  · refine .inl ⟨BitVec.eq_of_getLsbD_eq fun j _ => ?_, fun x hx => ?_⟩
    · rw [show (0 : BitVec 32).getLsbD j = false by simp]
      rcases Nat.lt_or_ge j 16 with hj | hj
      · rw [getLsbD_mask hs nd pos j hpos hj]
        simp only [Bool.and_eq_false_iff, decide_eq_false_iff_not]
        by_contra hc
        exact h ⟨j, hj, by tauto⟩
      · exact getLsbD_mask_high _ _ j hj
    · obtain ⟨j, hj, rfl⟩ := List.getElem_of_mem hx
      simp only [List.length_drop, Vector.length_toList] at hj
      rw [List.getElem_drop, Vector.getElem_toList]
      exact fun hc => h ⟨pos + j, by omega, by omega, hc⟩

/-- **The loop is the greedy search** for the lowered needle in what is left of the lowered storage. -/
theorem matchFuzzySSELoop_eq_embeds (nd : UInt8) (ndIt : Bytes) (hs : Reg) (hsIt : List Reg) (pos : ℕ) (hpos : pos < 16) :
    matchFuzzySSELoop nd ndIt hs hsIt pos = embeds (fun c x => decide (toLower c = x)) (nd :: ndIt)
      (hs.toList.drop pos ++ lower (hsIt.flatMap (fun r => r.toList))) := by
  have next : ∀ (r : Reg) (rs : List Reg), (simdToLower r).toList.drop 0 ++ lower (rs.flatMap (fun r => r.toList))
      = lower ((r :: rs).flatMap (fun r => r.toList)) := fun r rs => by
    rw [toList_simdToLower, List.drop_zero, List.flatMap_cons, lower, lower, List.map_append]
  rw [matchFuzzySSELoop.eq_def]
  rcases mask_cases hs (toLower nd) pos hpos with ⟨h0, hno⟩ | ⟨hne, k, hk, hf, pre, hpre, hno⟩
  · simp only [h0, ne_eq, not_true_eq_false, if_false]
    rw [embeds_append_of_forall_not _ _ _ _ _ (fun x hx => by simpa using Ne.symm (hno x hx))]
    cases hsIt with
    | nil => rfl
    | cons r rs =>
      simp only
      rw [matchFuzzySSELoop_eq_embeds nd ndIt (simdToLower r) rs 0 (by omega), next]
  · simp only [hne, ne_eq, not_false_eq_true, if_true, hf]
    rw [hpre, List.append_assoc, List.cons_append, embeds_cons_of_first _ _ _ _ _ _
      (fun x hx => by simpa using Ne.symm (hno x hx)) (by simp)]
    cases ndIt with
    | nil => simp
    | cons nd' ndIt =>
      simp only
      rcases Nat.lt_or_ge k 15 with hk' | hk'
      · have hand : (k + 1) &&& 15 = k + 1 := by
          rw [show 15 = 2 ^ 4 - 1 by rfl, Nat.and_two_pow_sub_one_eq_mod]
          omega
        rw [hand, if_pos (by omega), matchFuzzySSELoop_eq_embeds nd' ndIt hs hsIt (k + 1) (by omega)]
      · obtain rfl : k = 15 := by omega
        rw [if_neg (by decide), List.drop_of_length_le (by simp), List.nil_append]
        cases hsIt with
        | nil => rfl
        | cons r rs =>
          simp only
          rw [matchFuzzySSELoop_eq_embeds nd' ndIt (simdToLower r) rs 0 (by omega), next]
termination_by ndIt.length + hsIt.length

theorem toList_loadSi128 (mem : Bytes) (off : ℕ) (h : off + 16 ≤ mem.length) :
    (loadSi128 mem off).toList = (mem.drop off).take 16 := by
  apply List.ext_getElem
  · simp; omega
  · intro k h1 h2
    have hk : k < 16 := by simpa using h1
    simp only [loadSi128]
    rw [Vector.getElem_toList, Vector.getElem_ofFn, List.getElem_take, List.getElem_drop,
      List.getD_eq_getElem _ _ (by omega)]

/-- The blocks loaded are the storage, block by block. -/
theorem flatMap_loadBlocks (mem : Bytes) : ∀ (blocks : ℕ), 16 * blocks ≤ mem.length →
    (loadBlocks mem blocks).flatMap (fun r => r.toList) = mem.take (16 * blocks)
  | 0, _ => by simp [loadBlocks]
  | b + 1, h => by
    have ih := flatMap_loadBlocks mem b (by omega)
    unfold loadBlocks at ih ⊢
    rw [List.range_succ, List.map_append, List.flatMap_append, ih, List.map_singleton, List.flatMap_singleton,
      toList_loadSi128 mem (b * 16) (by omega), Nat.mul_comm b 16, Nat.mul_succ, List.take_add]

theorem roundUp_div (n : ℕ) : 16 * (roundUp 16 n / 16) = roundUp 16 n :=
  Nat.mul_div_cancel' (Nat.dvd_of_mod_eq_zero (roundUp_mod n))

/-- **The vector matcher is the greedy search** for the lowered needle in the lowered storage. -/
theorem matchFuzzySSE_eq_embeds (needle haystack : Bytes) :
    matchFuzzySSE needle haystack = embeds (fun c x => decide (toLower c = x)) needle (lower (zeroPad 16 haystack)) := by
  have hlen := length_zeroPad (N := 16) (by decide) haystack
  have hmem := flatMap_loadBlocks (zeroPad 16 haystack) (roundUp 16 haystack.length / 16) (by rw [roundUp_div, hlen])
  rw [roundUp_div, ← hlen, List.take_length] at hmem
  cases needle with
  | nil => simp [matchFuzzySSE]
  | cons nd ndIt =>
    conv => rhs; rw [← hmem]
    simp only [matchFuzzySSE]
    rw [← hlen]
    cases loadBlocks (zeroPad 16 haystack) ((zeroPad 16 haystack).length / 16) with
    | nil => rfl
    | cons r rs =>
      simp only
      rw [matchFuzzySSELoop_eq_embeds nd ndIt (simdToLower r) rs 0 (by omega), toList_simdToLower, List.drop_zero,
        List.flatMap_cons, lower, lower, List.map_append]

/-- **The vector matcher finds a subsequence of the storage**, case folded: the padding counts. -/
theorem matchFuzzySSE_iff (needle haystack : Bytes) :
    matchFuzzySSE needle haystack = true ↔ (lower needle).Sublist (lower (zeroPad 16 haystack)) := by
  rw [matchFuzzySSE_eq_embeds]
  simpa [lower] using embeds_eq_iff toLower id needle (lower (zeroPad 16 haystack))

/-- **The naive matcher finds a subsequence of the haystack**, each byte as itself or in upper case. -/
theorem matchFuzzyNaive_iff (needle haystack : Bytes) :
    matchFuzzyNaive needle haystack = true ↔
      List.SublistForall₂ (fun ch x => naiveHit ch x = true) needle haystack := by
  rw [matchFuzzyNaive_eq_embeds, embeds_iff]

theorem lower_append (s t : Bytes) : lower (s ++ t) = lower s ++ lower t := List.map_append

theorem lower_zeroPad (N : ℕ) (s : Bytes) :
    lower (zeroPad N s) = lower s ++ List.replicate (roundUp N s.length - s.length) 0 := by
  rw [zeroPad, lower_append]
  simp [lower]

theorem getLast?_lower_ne_zero {s : Bytes} (h : s.getLast? ≠ some 0) : (lower s).getLast? ≠ some 0 := by
  rw [lower, List.getLast?_map]
  cases hs : s.getLast? with
  | none => simp
  | some c => simpa [toLower_eq_zero] using fun h0 : c = 0 => h (by rw [hs, h0])

/-- **A needle that does not end in a NUL byte** is searched in the haystack itself. -/
theorem matchFuzzySSE_iff_of_getLast {needle : Bytes} (h : needle.getLast? ≠ some 0) (haystack : Bytes) :
    matchFuzzySSE needle haystack = true ↔ (lower needle).Sublist (lower haystack) := by
  rw [matchFuzzySSE_iff, lower_zeroPad, sublist_append_replicate_iff (getLast?_lower_ne_zero h)]

/-! ## Where the two fuzzy matchers agree -/

theorem lowerHit_of_naiveHit (ch x : UInt8) (h : naiveHit ch x = true) : lowerHit ch x = true := by
  have key : ∀ c : UInt8, toLower (toUpper c) = toLower c := forall_byte (by decide +kernel)
  simp only [naiveHit, Bool.or_eq_true, beq_iff_eq] at h
  rcases h with rfl | rfl
  · simp [lowerHit]
  · simp [lowerHit, key]

theorem naiveHit_of_lowerHit (ch x : UInt8) (hch : isUpper ch = false) (h : lowerHit ch x = true) :
    naiveHit ch x = true := by
  simpa [naiveHit] using (toLower_eq_iff ch x hch).1 (of_decide_eq_true h)

/-- Whatever the naive matcher accepts, the vector matcher accepts. -/
theorem matchFuzzySSE_of_naive (needle haystack : Bytes) (h : matchFuzzyNaive needle haystack = true) :
    matchFuzzySSE needle haystack = true := by
  rw [matchFuzzyNaive_eq_embeds] at h
  have hl := embeds_mono (fun c _ x => lowerHit_of_naiveHit c x) h
  rw [matchFuzzySSE_iff, lower_zeroPad]
  exact ((embeds_eq_iff toLower toLower needle haystack).1 hl).trans (List.sublist_append_left _ _)

/-- A needle with a capital is found by the vector matcher, and not by the naive one, in its lower-case form. -/
theorem disagree_of_isUpper {needle : Bytes} {ch : UInt8} (hch : ch ∈ needle) (h : isUpper ch = true) :
    matchFuzzySSE needle (lower needle) = true ∧ matchFuzzyNaive needle (lower needle) = false := by
  constructor
  · rw [matchFuzzySSE_iff, lower_zeroPad]
    have : lower (lower needle) = lower needle := by simp [lower, toLower_toLower]
    rw [this]
    exact List.sublist_append_left _ _
  · rw [← Bool.not_eq_true, matchFuzzyNaive_eq_embeds]
    intro he
    have hf := forall₂_of_embeds he (by simp [lower])
    rw [lower, List.forall₂_map_right_iff, List.forall₂_same] at hf
    have hne := toLower_ne_of_isUpper ch h
    simpa [naiveHit, hne.1, hne.2] using hf ch hch

/-- A needle ending in a NUL byte is found by the vector matcher, and not by the naive one, in a haystack without that
byte whose storage has padding. -/
theorem disagree_of_getLast {needle : Bytes} (h : needle.getLast? = some 0) :
    ∃ haystack, matchFuzzySSE needle haystack = true ∧ matchFuzzyNaive needle haystack = false := by
  obtain ⟨n, rfl⟩ : ∃ n, needle = n ++ [0] := ⟨needle.dropLast, (List.dropLast_append_getLast? 0 h).symm⟩
  have found : ∀ s : Bytes, roundUp 16 (n ++ s).length ≠ (n ++ s).length → matchFuzzySSE (n ++ [0]) (n ++ s) = true := by
    intro s hs
    have hle := le_roundUp (N := 16) (by decide) (n ++ s).length
    obtain ⟨k, hk⟩ : ∃ k, roundUp 16 (n ++ s).length - (n ++ s).length = k + 1 := ⟨_, (Nat.succ_pred (by omega)).symm⟩
    rw [matchFuzzySSE_iff, lower_zeroPad, lower_append, lower_append, hk, List.append_assoc]
    refine (List.Sublist.refl _).append (List.Sublist.trans ?_ (List.sublist_append_right _ _))
    simp [lower, List.replicate_succ]
  by_cases hn : n.length % 16 = 0
  · have hpad : roundUp 16 (n ++ [1]).length ≠ (n ++ [1]).length := by
      unfold roundUp
      simp only [List.length_append, List.length_singleton]
      split <;> omega
    refine ⟨n ++ [1], found [1] hpad, ?_⟩
    rw [← Bool.not_eq_true, matchFuzzyNaive_eq_embeds]
    intro he
    have hz : ((0, 1) : UInt8 × UInt8) ∈ (n ++ [0]).zip (n ++ [1]) := by rw [List.zip_append rfl]; simp
    exact absurd ((List.forall₂_iff_zip.1 (forall₂_of_embeds he (by simp))).2 hz) (by decide)
  · refine ⟨n, by simpa using found [] (by simpa [roundUp, hn] using by omega), ?_⟩
    rw [← Bool.not_eq_true, matchFuzzyNaive_eq_embeds]
    intro he
    have := length_le_of_embeds he
    simp at this

/-- **The two fuzzy matchers agree on every haystack exactly when the needle has no capital and does not end in a NUL
byte**: a capital the naive matcher finds only as itself, and a final NUL byte the vector matcher finds in the
padding. -/
theorem matchFuzzySSE_eq_naive_iff (needle : Bytes) :
    (∀ haystack, matchFuzzySSE needle haystack = matchFuzzyNaive needle haystack) ↔
      (∀ ch ∈ needle, isUpper ch = false) ∧ needle.getLast? ≠ some 0 := by
  constructor
  · intro h
    refine ⟨fun ch hch => ?_, fun hl => ?_⟩
    · by_contra hu
      obtain ⟨h1, h2⟩ := disagree_of_isUpper hch (by simpa using hu)
      rw [h, h2] at h1
      cases h1
    · obtain ⟨haystack, h1, h2⟩ := disagree_of_getLast hl
      rw [h, h2] at h1
      cases h1
  · rintro ⟨hu, hl⟩ haystack
    refine Bool.eq_iff_iff.2 ⟨fun h => ?_, matchFuzzySSE_of_naive needle haystack⟩
    rw [matchFuzzySSE_iff_of_getLast hl] at h
    rw [matchFuzzyNaive_eq_embeds]
    exact embeds_mono (fun c hc x => naiveHit_of_lowerHit c x (hu c hc)) ((embeds_eq_iff toLower toLower _ _).2 h)

/-- A capital looked for in its lower-case form: found by the vector matcher, missed by the naive one. -/
theorem matchFuzzySSE_ne_naive : ¬ ∀ needle haystack, matchFuzzySSE needle haystack = matchFuzzyNaive needle haystack :=
  fun h => absurd (h ['A'.toUInt8] ['a'.toUInt8]) (by decide +kernel)

/-! ## The comparing matchers, as relations of the lowered strings -/

theorem cmpLower_iff : ∀ (needle h : Bytes), cmpLower needle h = true ↔ lower needle <+: lower h
  | [], h => by simp [cmpLower, lower]
  | n :: ns, [] => by simp [cmpLower, lower]
  | n :: ns, h :: hs => by
    rw [cmpLower, lower, lower, List.map_cons, List.map_cons, List.cons_prefix_cons, ← lower, ← lower, ← cmpLower_iff ns hs]
    by_cases hc : toLower n = toLower h <;> simp [hc]

/-- The tests of the lengths only turn away what does not match. -/
theorem not_infix_of_lt {needle haystack : Bytes} (h : haystack.length < needle.length) :
    ¬ lower needle <:+: lower haystack := by
  intro hp
  have hle := hp.length_le
  rw [length_lower, length_lower] at hle
  exact Nat.not_lt_of_le hle h

theorem matchBegin_iff (needle haystack : Bytes) : matchBegin needle haystack = true ↔ lower needle <+: lower haystack := by
  rw [matchBegin]
  split
  · rename_i h
    exact iff_of_false Bool.false_ne_true (fun hp => not_infix_of_lt h hp.isInfix)
  · exact cmpLower_iff needle haystack

theorem matchEnd_iff (needle haystack : Bytes) : matchEnd needle haystack = true ↔ lower needle <:+ lower haystack := by
  rw [matchEnd]
  split
  · rename_i h
    exact iff_of_false Bool.false_ne_true (fun hp => not_infix_of_lt h hp.isInfix)
  · rename_i h
    have hlen : (lower (haystack.drop (haystack.length - needle.length))).length = (lower needle).length := by
      rw [length_lower, length_lower, List.length_drop]; omega
    rw [cmpLower_iff, List.suffix_iff_eq_drop, length_lower, length_lower, lower, lower, lower, ← List.map_drop]
    rw [← lower, ← lower] at *
    exact ⟨fun hp => hp.eq_of_length hlen.symm, fun he => by rw [← he]⟩

theorem matchExact_iff (needle haystack : Bytes) : matchExact needle haystack = true ↔ lower needle = lower haystack := by
  rw [matchExact]
  split
  · rename_i h
    refine iff_of_false (by simp) (fun he => h ?_)
    rw [← length_lower, he, length_lower]
  · rename_i h
    rw [cmpLower_iff]
    exact ⟨fun hp => hp.eq_of_length (by rw [length_lower, length_lower]; omega), fun he => by rw [he]⟩

theorem matchSubstr_iff (needle haystack : Bytes) : matchSubstr needle haystack = true ↔ lower needle <:+: lower haystack := by
  rw [matchSubstr]
  split
  · rename_i h
    rw [List.isEmpty_iff.1 h]
    simp [lower]
  · split
    · rename_i h
      exact iff_of_false Bool.false_ne_true (not_infix_of_lt h)
    · rename_i hne h
      simp only [List.any_eq_true, List.mem_range, cmpLower_iff]
      constructor
      · rintro ⟨k, -, hp⟩
        rw [lower, lower, List.map_drop] at hp
        exact hp.isInfix.trans (List.drop_suffix _ _).isInfix
      · intro hi
        obtain ⟨t, hp, hs⟩ := List.infix_iff_prefix_suffix.1 hi
        have h1 := hp.length_le
        have h2 := hs.length_le
        rw [length_lower] at h1 h2
        refine ⟨haystack.length - t.length, by omega, ?_⟩
        rw [List.suffix_iff_eq_drop, length_lower] at hs
        rw [lower, lower, List.map_drop, ← lower, ← lower, ← hs]
        exact hp

/-! ## Where a string occurs -/

/-- The needle is at index `k`, ignoring case. -/
def Occurs (needle haystack : Bytes) (k : ℕ) : Prop :=
  k + needle.length ≤ haystack.length ∧ lower ((haystack.drop k).take needle.length) = lower needle

theorem cmpLower_drop_iff {needle haystack : Bytes} {k : ℕ} (hk : k + needle.length ≤ haystack.length) :
    cmpLower needle (haystack.drop k) = true ↔ Occurs needle haystack k := by
  rw [cmpLower_iff, List.prefix_iff_eq_take, length_lower, Occurs, and_iff_right hk, eq_comm, lower, lower, lower,
    List.map_take]

/-- **`matchSubstrIndex` is the least index**, or -1 where there is none. -/
theorem matchSubstrIndex_cases (needle haystack : Bytes) :
    (∃ k : ℕ, matchSubstrIndex needle haystack = k ∧ Occurs needle haystack k ∧ ∀ j < k, ¬ Occurs needle haystack j) ∨
      (matchSubstrIndex needle haystack = -1 ∧ ∀ k, ¬ Occurs needle haystack k) := by
  rw [matchSubstrIndex]
  split
  · rename_i h
    rw [List.isEmpty_iff.1 h]
    exact .inl ⟨0, rfl, ⟨Nat.zero_le _, rfl⟩, fun j hj => absurd hj (Nat.not_lt_zero j)⟩
  · split
    · rename_i hlong
      exact .inr ⟨rfl, fun k hk => by have := hk.1; omega⟩
    · split
      · rename_i i hfind
        obtain ⟨hi, hmem, hlow⟩ := List.find?_range_eq_some.1 hfind
        have hmem := List.mem_range.1 hmem
        refine .inl ⟨i, rfl, (cmpLower_drop_iff (by omega)).1 hi, fun j hj hocc => ?_⟩
        have hno := hlow j hj
        rw [(cmpLower_drop_iff (by omega)).2 hocc] at hno
        cases hno
      · rename_i hfind
        refine .inr ⟨rfl, fun k hk => ?_⟩
        have hno := List.find?_range_eq_none.1 hfind k (by have := hk.1; omega)
        rw [(cmpLower_drop_iff hk.1).2 hk] at hno
        cases hno

/-- **The two searches agree.** -/
theorem matchSubstr_iff_index (needle haystack : Bytes) :
    matchSubstr needle haystack = true ↔ matchSubstrIndex needle haystack ≠ -1 := by
  rw [matchSubstr, matchSubstrIndex]
  split
  · exact iff_of_true rfl (by decide)
  · split
    · exact iff_of_false Bool.false_ne_true (fun h => h rfl)
    · rw [List.any_eq_true, ← List.find?_isSome]
      cases (List.range (haystack.length - needle.length + 1)).find? (fun i => cmpLower needle (haystack.drop i)) with
      | none => exact iff_of_false Bool.false_ne_true (fun h => h rfl)
      | some i => exact iff_of_true rfl (by dsimp only; omega)

end Fzx
