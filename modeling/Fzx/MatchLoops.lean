import Fzx.Match
import Fzx.ScoreBest
/-!
# MatchLoops — the loops of match.cpp with their pointers

`matchFuzzySSE`, `matchSubstr` and `matchSubstrIndex` once more, now round by round, with the pointers and indices that the
source keeps: an offset into a string for a pointer, a whole number for an `int`.  Every read is checked and faults outside
its string, and a loop is cut after a number of rounds.  What the checked functions return they return for all numbers of
rounds from some one on, and it is what the functions of `Match` give.
-/
namespace Fzx

open Lib

namespace Loops

/-- Byte `i` of a string; a fault outside. -/
def byte (s : Bytes) (i : ℤ) : Option UInt8 := if 0 ≤ i then s[i.toNat]? else none

/-- `_mm_load_si128`: the 16 bytes from a multiple of 16 on; a fault where not all of them are inside. -/
def load (mem : Bytes) (off : ℕ) : Option Reg :=
  if off % 16 = 0 ∧ off + 16 ≤ mem.length then some (loadSi128 mem off) else none

/-! ## matchFuzzySSE -/

structure FuzzyState where
  ndIt : ℕ
  hsIt : ℕ
  hs : Reg
  nd : Reg
  pos : ℕ

/-- The rest of a round that goes on to the next 16 bytes. -/
def loadNext (mem : Bytes) (hsEnd : ℕ) (st : FuzzyState) : Option (FuzzyState ⊕ Bool) :=
  let hsIt := st.hsIt + 16
  if hsIt = hsEnd then some (.inr false)
  else (load mem hsIt).map (fun hs => .inl { st with hsIt, hs := simdToLower hs, pos := 0 })

def fuzzyRound (needle mem : Bytes) (ndEnd hsEnd : ℕ) (st : FuzzyState) : Option (FuzzyState ⊕ Bool) :=
  let mask := movemaskEpi8 (cmpeqEpi8 st.hs st.nd)
  let mask := mask &&& (0xFFFF#32 <<< st.pos) -- mask out past positions
  if mask ≠ 0 then
    let ndIt := st.ndIt + 1
    if ndIt = ndEnd then some (.inr true)
    else (byte needle ndIt).bind (fun c =>
      let nd := set1Epi8 (toLower c)
      let pos := ffs32 mask &&& 15 -- the last position of a block is masked out to 0
      if pos ≠ 0 then some (.inl { st with ndIt, nd, pos }) else loadNext mem hsEnd { st with ndIt, nd, pos })
  else loadNext mem hsEnd st

def matchFuzzySSE (rounds : ℕ) (needle haystack : Bytes) : Option Bool :=
  let ndEnd := needle.length
  if ndEnd = 0 then some true
  else
    let mem := zeroPad 16 haystack
    let hsEnd := roundUp 16 haystack.length
    if hsEnd = 0 then some false
    else (load mem 0).bind (fun hs => (byte needle 0).bind (fun c =>
      loop (fuzzyRound needle mem ndEnd hsEnd) rounds
        { ndIt := 0, hsIt := 0, hs := simdToLower hs, nd := set1Epi8 (toLower c), pos := 0 }))

/-! ## matchSubstr, matchSubstrIndex

One nested loop for both, which differ in where the ends come from and in what they return. -/

/-- At the head of the outer loop, or in `cmp` at needle byte `n` and haystack byte `h`. -/
inductive SubstrState where
  | outer (i : ℤ)
  | cmp (i n h : ℤ)

def substrRound {ρ : Type} (needle haystack : Bytes) (nEnd hEnd : ℤ) (found : ℤ → ρ) (missing : ρ) :
    SubstrState → Option (SubstrState ⊕ ρ)
  | .outer i => if i = hEnd then some (.inr missing) else some (.inl (.cmp i 0 i))
  | .cmp i n h =>
    if n = nEnd then some (.inr (found i))
    else (byte needle n).bind (fun a => (byte haystack h).bind (fun b =>
      if toLower a ≠ toLower b then some (.inl (.outer (i + 1))) else some (.inl (.cmp i (n + 1) (h + 1)))))

def matchSubstr (rounds : ℕ) (needle haystack : Bytes) : Option Bool :=
  if needle.isEmpty then some true
  else if needle.length > haystack.length then some false
  else
    let hend := haystack.length - needle.length + 1
    loop (substrRound needle haystack needle.length hend (fun _ => true) false) rounds (.outer 0)

def matchSubstrIndex (rounds : ℕ) (needle haystack : Bytes) : Option ℤ :=
  if needle.isEmpty then some 0
  else if needle.length > haystack.length then some (-1)
  else
    let nEnd := castInt needle.length
    let hEnd := castInt (haystack.length - needle.length) + 1
    loop (substrRound needle haystack nEnd hEnd id (-1)) rounds (.outer 0)

/-! ## Reads -/

theorem byte_of_lt {s : Bytes} {i : ℕ} (h : i < s.length) : byte s i = some s[i] := by
  rw [byte, if_pos (Int.natCast_nonneg i), Int.toNat_natCast, List.getElem?_eq_getElem h]

/-- The blocks from `off` on. -/
def blocks (mem : Bytes) (off n : ℕ) : List Reg := (List.range n).map (fun b => loadSi128 mem (off + b * 16))

theorem blocks_succ (mem : Bytes) (off n : ℕ) :
    blocks mem off (n + 1) = loadSi128 mem off :: blocks mem (off + 16) n := by
  rw [blocks, List.range_succ_eq_map, List.map_cons, List.map_map, Nat.zero_mul, Nat.add_zero, blocks]
  refine congrArg (List.cons _) (List.map_congr_left (fun b _ => ?_))
  rw [Function.comp_apply, Nat.succ_mul, Nat.add_comm (b * 16), ← Nat.add_assoc]

theorem loadBlocks_eq (mem : Bytes) (n : ℕ) : loadBlocks mem n = blocks mem 0 n := by
  rw [loadBlocks, blocks]
  refine List.map_congr_left (fun b _ => ?_)
  rw [Nat.zero_add]

/-! ## matchFuzzySSE returns -/

/-- The pointers stand at the needle byte `nd`, with `ndIt` behind it, and at a block with `n` more behind it. -/
structure FuzzyAt (needle mem : Bytes) (st : FuzzyState) (nd : UInt8) (ndIt : Bytes) (n : ℕ) : Prop where
  needle : needle.drop st.ndIt = nd :: ndIt
  nd : st.nd = set1Epi8 (toLower nd)
  aligned : st.hsIt % 16 = 0
  length : mem.length = st.hsIt + 16 * (n + 1)

variable {needle mem : Bytes} {st : FuzzyState} {nd : UInt8} {ndIt : Bytes} {n : ℕ}

theorem FuzzyAt.loadNext_zero (h : FuzzyAt needle mem st nd ndIt 0) : loadNext mem mem.length st = some (.inr false) := by
  rw [loadNext]
  exact if_pos h.length.symm

theorem FuzzyAt.loadNext_succ (h : FuzzyAt needle mem st nd ndIt (n + 1)) : loadNext mem mem.length st =
    some (.inl { st with hsIt := st.hsIt + 16, hs := simdToLower (loadSi128 mem (st.hsIt + 16)), pos := 0 }) := by
  have hlen := h.length
  have haligned := h.aligned
  rw [loadNext, if_neg (by omega), load, if_pos ⟨by omega, by omega⟩]
  rfl

theorem FuzzyAt.next (h : FuzzyAt needle mem st nd ndIt (n + 1)) {hs : Reg} :
    FuzzyAt needle mem { st with hsIt := st.hsIt + 16, hs, pos := 0 } nd ndIt n where
  needle := h.needle
  nd := h.nd
  aligned := by
    have haligned := h.aligned
    dsimp only
    omega
  length := by
    have hlen := h.length
    dsimp only
    omega

/-- The next needle byte is read inside the needle. -/
theorem FuzzyAt.step {nd' : UInt8} (h : FuzzyAt needle mem st nd (nd' :: ndIt) n) (pos : ℕ) :
    st.ndIt + 1 ≠ needle.length ∧ byte needle (st.ndIt + 1 : ℕ) = some nd' ∧
      FuzzyAt needle mem { st with ndIt := st.ndIt + 1, nd := set1Epi8 (toLower nd'), pos } nd' ndIt n := by
  have hdrop : needle.drop (st.ndIt + 1) = nd' :: ndIt := by
    rw [← List.drop_drop, h.needle]
    rfl
  have hlt : st.ndIt + 1 < needle.length := by
    have hlen := congrArg List.length hdrop
    rw [List.length_drop, List.length_cons] at hlen
    omega
  refine ⟨Nat.ne_of_lt hlt, ?_, hdrop, rfl, h.aligned, h.length⟩
  rw [List.drop_eq_getElem_cons hlt, List.cons.injEq] at hdrop
  rw [byte_of_lt hlt, hdrop.1]

/-- **The loop returns what the loop over the needle's bytes and the blocks gives**, without a fault. -/
theorem FuzzyAt.returns (nd : UInt8) (ndIt : Bytes) (n : ℕ) (st : FuzzyState) (h : FuzzyAt needle mem st nd ndIt n) :
    Returns (fuzzyRound needle mem needle.length mem.length) st
      (matchFuzzySSELoop nd ndIt st.hs (blocks mem (st.hsIt + 16) n) st.pos) := by
  rw [matchFuzzySSELoop.eq_def]
  dsimp only
  rw [← h.nd]
  by_cases hmask : movemaskEpi8 (cmpeqEpi8 st.hs st.nd) &&& (0xFFFF#32 <<< st.pos) ≠ 0
  · rw [if_pos hmask]
    cases ndIt with
    | nil =>
      have hend : st.ndIt + 1 = needle.length := by
        have hlen := congrArg List.length h.needle
        rw [List.length_drop, List.length_singleton] at hlen
        omega
      refine .done ?_
      rw [fuzzyRound]
      dsimp only
      rw [if_pos hmask, if_pos hend]
    | cons nd' ndIt =>
      dsimp only
      generalize hpos : ffs32 (movemaskEpi8 (cmpeqEpi8 st.hs st.nd) &&& (0xFFFF#32 <<< st.pos)) &&& 15 = pos
      obtain ⟨hend, hbyte, hat⟩ := h.step pos
      have hround : fuzzyRound needle mem needle.length mem.length st =
          if pos ≠ 0 then some (.inl { st with ndIt := st.ndIt + 1, nd := set1Epi8 (toLower nd'), pos })
          else loadNext mem mem.length { st with ndIt := st.ndIt + 1, nd := set1Epi8 (toLower nd'), pos } := by
        rw [fuzzyRound]
        dsimp only
        rw [if_pos hmask, if_neg hend, hbyte, Option.bind_some, hpos]
      by_cases h0 : pos ≠ 0
      · rw [if_pos h0] at hround ⊢
        exact .next hround (FuzzyAt.returns nd' ndIt n _ hat)
      · rw [if_neg h0] at hround ⊢
        cases n with
        | zero => exact .done (hround.trans hat.loadNext_zero)
        | succ n =>
          rw [blocks_succ]
          exact .next (hround.trans hat.loadNext_succ) (FuzzyAt.returns nd' ndIt n _ hat.next)
  · rw [if_neg hmask]
    have hround : fuzzyRound needle mem needle.length mem.length st = loadNext mem mem.length st := by
      rw [fuzzyRound]
      dsimp only
      rw [if_neg hmask]
    cases n with
    | zero => exact .done (hround.trans h.loadNext_zero)
    | succ n =>
      rw [blocks_succ]
      exact .next (hround.trans h.loadNext_succ) (FuzzyAt.returns nd ndIt n _ h.next)
termination_by ndIt.length + n

theorem matchFuzzySSE_eq (needle haystack : Bytes) :
    ∃ n, ∀ rounds, n ≤ rounds → matchFuzzySSE rounds needle haystack = some (Fzx.matchFuzzySSE needle haystack) := by
  cases needle with
  | nil => exact ⟨0, fun rounds _ => rfl⟩
  | cons nd ndIt =>
    have hlen := length_zeroPad (N := 16) (by decide) haystack
    have hdiv := roundUp_div haystack.length
    simp only [matchFuzzySSE, Fzx.matchFuzzySSE, List.length_cons, Nat.add_one_ne_zero, if_false, loadBlocks_eq]
    obtain h0 | ⟨n, hn⟩ : roundUp 16 haystack.length / 16 = 0 ∨ ∃ n, roundUp 16 haystack.length / 16 = n + 1 := by
      cases roundUp 16 haystack.length / 16 with
      | zero => exact .inl rfl
      | succ n => exact .inr ⟨n, rfl⟩
    · refine ⟨0, fun rounds _ => ?_⟩
      rw [if_pos (by omega), h0]
      rfl
    · have hload : load (zeroPad 16 haystack) 0 = some (loadSi128 (zeroPad 16 haystack) 0) :=
        if_pos ⟨rfl, by omega⟩
      have hbyte : byte (nd :: ndIt) 0 = some nd := rfl
      have hat : FuzzyAt (nd :: ndIt) (zeroPad 16 haystack)
          { ndIt := 0, hsIt := 0, hs := simdToLower (loadSi128 (zeroPad 16 haystack) 0),
            nd := set1Epi8 (toLower nd), pos := 0 } nd ndIt n :=
        ⟨rfl, rfl, rfl, by dsimp only; omega⟩
      obtain ⟨m, hm⟩ := (FuzzyAt.returns nd ndIt n _ hat).loop
      refine ⟨m, fun rounds hr => ?_⟩
      rw [if_neg (by omega), hload, Option.bind_some, hbyte, Option.bind_some, hn, blocks_succ, ← hlen]
      exact hm rounds hr

/-- **`matchFuzzySSE` returns whether the lowered needle is a subsequence of the lowered haystack**: no read is outside, and
the padding does not count for a needle without NUL bytes. -/
theorem matchFuzzySSE_returns (needle haystack : Bytes) (h : 0 ∉ needle) :
    ∃ found n, (∀ rounds, n ≤ rounds → matchFuzzySSE rounds needle haystack = some found) ∧
      (found = true ↔ (lower needle).Sublist (lower haystack)) := by
  obtain ⟨n, hn⟩ := matchFuzzySSE_eq needle haystack
  have hlast : needle.getLast? ≠ some 0 := fun h0 => h (List.mem_of_getLast? h0)
  exact ⟨Fzx.matchFuzzySSE needle haystack, n, hn, matchFuzzySSE_iff_of_getLast hlast haystack⟩

/-- `[z]` is looked for past the end of the first block and found at the end of the second. -/
theorem matchFuzzySSE_returns_second_block : ∃ n, ∀ rounds, n ≤ rounds →
    matchFuzzySSE rounds [120, 90] (List.replicate 16 120 ++ [122]) = some true := by
  obtain ⟨found, n, hn, hiff⟩ := matchFuzzySSE_returns [120, 90] (List.replicate 16 120 ++ [122]) (by decide)
  obtain rfl : found = true := hiff.2 (by decide +kernel)
  exact ⟨n, hn⟩

/-! ## matchSubstr and matchSubstrIndex return -/

section Substr

variable {ρ : Type} {needle haystack : Bytes} {hEnd : ℤ} {found : ℤ → ρ} {missing r : ρ}

theorem cmp_round {k m : ℕ} (hm : m < needle.length) (hk : k + m < haystack.length) :
    substrRound needle haystack needle.length hEnd found missing (.cmp k m (k + m : ℕ)) =
      if toLower needle[m] ≠ toLower haystack[k + m] then some (.inl (.outer (k + 1 : ℕ)))
      else some (.inl (.cmp k (m + 1 : ℕ) (k + (m + 1) : ℕ))) := by
  rw [substrRound, if_neg (by omega), byte_of_lt hm, Option.bind_some, byte_of_lt hk, Option.bind_some]
  push_cast
  rw [add_assoc]

/-- **The inner loop compares the rest of the needle** and returns, or goes back to the outer loop. -/
theorem cmp_returns {k : ℕ} (hk : k + needle.length ≤ haystack.length) : ∀ (d m : ℕ), m + d = needle.length →
    (cmpLower (needle.drop m) (haystack.drop (k + m)) = true → r = found k) →
    (cmpLower (needle.drop m) (haystack.drop (k + m)) = false →
      Returns (substrRound needle haystack needle.length hEnd found missing) (.outer (k + 1 : ℕ)) r) →
    Returns (substrRound needle haystack needle.length hEnd found missing) (.cmp k m (k + m : ℕ)) r
  | 0, m, hd, hfound, _ => by
    have hnil : needle.drop m = [] := List.drop_of_length_le (by omega)
    rw [hnil] at hfound
    refine .done ?_
    rw [substrRound, if_pos (by omega), hfound rfl]
  | d + 1, m, hd, hfound, hmiss => by
    have hround := @cmp_round ρ needle haystack hEnd found missing k m (by omega) (by omega)
    rw [List.drop_eq_getElem_cons (by omega : m < needle.length),
      List.drop_eq_getElem_cons (by omega : k + m < haystack.length), cmpLower] at hfound hmiss
    split at hround
    · rename_i hne
      rw [if_pos hne] at hmiss
      exact .next hround (hmiss rfl)
    · rename_i heq
      rw [if_neg heq] at hfound hmiss
      exact .next hround (cmp_returns hk d (m + 1) (by omega) hfound hmiss)

/-- **The outer loop returns the first index found**, among those from `k` on. -/
theorem outer_returns (found : ℤ → ρ) (missing : ρ) (hle : needle.length ≤ haystack.length) :
    ∀ (d k : ℕ), k + d = haystack.length - needle.length + 1 →
      Returns (substrRound needle haystack needle.length (haystack.length - needle.length + 1 : ℕ) found missing) (.outer k)
        (((List.range' k d).find? (fun i => cmpLower needle (haystack.drop i))).elim missing (fun i => found i))
  | 0, k, hd => by
    refine .done ?_
    rw [substrRound, if_pos (by omega)]
    rfl
  | d + 1, k, hd => by
    have hcmp : substrRound needle haystack needle.length (haystack.length - needle.length + 1 : ℕ) found missing
        (.outer k) = some (.inl (.cmp k (0 : ℕ) (k + 0 : ℕ))) := by
      rw [substrRound, if_neg (by omega)]
      rfl
    refine .next hcmp (cmp_returns (by omega) needle.length 0 (Nat.zero_add _)
      (fun (h : cmpLower needle (haystack.drop k) = true) => ?_)
      (fun (h : cmpLower needle (haystack.drop k) = false) => ?_))
    · rw [List.range'_succ, List.find?_cons, h]
      rfl
    · rw [List.range'_succ, List.find?_cons, h]
      exact outer_returns found missing hle d (k + 1) (by omega)

end Substr

theorem matchSubstr_eq (needle haystack : Bytes) :
    ∃ n, ∀ rounds, n ≤ rounds → matchSubstr rounds needle haystack = some (Fzx.matchSubstr needle haystack) := by
  simp only [matchSubstr, Fzx.matchSubstr]
  split
  · exact ⟨0, fun _ _ => rfl⟩
  · split
    · exact ⟨0, fun _ _ => rfl⟩
    · rename_i hle
      obtain ⟨n, hn⟩ := (outer_returns (fun _ => true) false (Nat.not_lt.mp hle) _ 0 (Nat.zero_add _)).loop
      refine ⟨n, fun rounds hr => (hn rounds hr).trans ?_⟩
      rw [← List.range_eq_range', ← List.isSome_find?]
      cases (List.range (haystack.length - needle.length + 1)).find? (fun i => cmpLower needle (haystack.drop i)) <;> rfl

theorem matchSubstrIndex_eq (needle haystack : Bytes) (hlt : haystack.length < 2 ^ 31) : ∃ n, ∀ rounds, n ≤ rounds →
    matchSubstrIndex rounds needle haystack = some (Fzx.matchSubstrIndex needle haystack) := by
  simp only [matchSubstrIndex, Fzx.matchSubstrIndex]
  split
  · exact ⟨0, fun _ _ => rfl⟩
  · split
    · exact ⟨0, fun _ _ => rfl⟩
    · rename_i hle
      obtain ⟨n, hn⟩ := (outer_returns id (-1) (Nat.not_lt.mp hle) _ 0 (Nat.zero_add _)).loop
      refine ⟨n, fun rounds hr => ?_⟩
      rw [castInt_of_lt (by omega), castInt_of_lt (by omega), ← Nat.cast_add_one]
      refine (hn rounds hr).trans ?_
      rw [← List.range_eq_range']
      cases (List.range (haystack.length - needle.length + 1)).find? (fun i => cmpLower needle (haystack.drop i)) <;> rfl

/-- **The searches return**, for haystacks below 2^31 bytes: `matchSubstrIndex` the least index, or -1 where the needle
does not occur, and `matchSubstr` whether it is not -1. -/
theorem matchSubstrIndex_returns (needle haystack : Bytes) (hlt : haystack.length < 2 ^ 31) :
    ∃ (index : ℤ) (found : Bool) (n : ℕ),
      (∀ rounds, n ≤ rounds →
        matchSubstrIndex rounds needle haystack = some index ∧ matchSubstr rounds needle haystack = some found) ∧
      ((∃ k : ℕ, index = k ∧ Occurs needle haystack k ∧ ∀ j < k, ¬ Occurs needle haystack j) ∨
        (index = -1 ∧ ∀ k, ¬ Occurs needle haystack k)) ∧
      (needle = [] → index = 0) ∧ (found = true ↔ index ≠ -1) := by
  obtain ⟨n₁, h₁⟩ := matchSubstrIndex_eq needle haystack hlt
  obtain ⟨n₂, h₂⟩ := matchSubstr_eq needle haystack
  refine ⟨Fzx.matchSubstrIndex needle haystack, Fzx.matchSubstr needle haystack, max n₁ n₂, fun rounds hr => ?_,
    matchSubstrIndex_cases needle haystack, ?_, matchSubstr_iff_index needle haystack⟩
  · exact ⟨h₁ rounds (le_of_max_le_left hr), h₂ rounds (le_of_max_le_right hr)⟩
  · rintro rfl
    rfl

/-- The second of three places is the first to fit. -/
theorem matchSubstrIndex_returns_one : ∃ n, ∀ rounds, n ≤ rounds →
    matchSubstrIndex rounds [66] [97, 98, 98] = some 1 ∧ matchSubstr rounds [66] [97, 98, 98] = some true := by
  obtain ⟨index, found, n, hn, hcases, -, hfound⟩ := matchSubstrIndex_returns [66] [97, 98, 98] (by decide)
  have h0 : ¬ Occurs [66] [97, 98, 98] 0 := fun h => absurd h.2 (by decide +kernel)
  have h1 : Occurs [66] [97, 98, 98] 1 := ⟨by decide, by decide +kernel⟩
  obtain rfl : index = 1 := by
    rcases hcases with ⟨k, rfl, hk, hlow⟩ | ⟨-, hno⟩
    · have hle : k ≤ 1 := not_lt.1 (fun h => hlow 1 h h1)
      interval_cases k
      · exact absurd hk h0
      · rfl
    · exact absurd h1 (hno 1)
  obtain rfl : found = true := hfound.2 (by decide)
  exact ⟨n, hn⟩

end Loops

end Fzx
