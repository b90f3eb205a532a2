import Fzx.Score
/-!
# ScoreBest — the scores are maxima over alignments

`scoreAlign` reads a needle and a haystack as an alignment problem: row `i` hits column `j` when the characters agree
in lower case, and a column's bonus is decided by its byte and the byte before it, a `'/'` before the first.  `matchRow`
computes the rows of its recurrence (`matchRow_spec`), so `score` with its rolling buffers and `matchPositions` with
its tables return the best score over every alignment (`score_matchPositions_best`).
-/
namespace Fzx

open Lib

/-! ## The specification -/

/-- The bonus of a position: its byte and its predecessor's. -/
def bonusAt (haystack : Bytes) (j : ℕ) : ℤ :=
  kBonusStates (kBonusIndex (haystack.getD j 0)) (if j = 0 then '/'.toUInt8 else haystack.getD (j - 1) 0)

/-- Needle and haystack as an alignment problem. -/
def scoreAlign (needle haystack : Bytes) : Align where
  leading := kScoreGapLeading
  inner := kScoreGapInner
  consecutive := kScoreMatchConsecutive
  bonus := bonusAt haystack
  hit := fun i j => toLower (needle.getD i 0) == toLower (haystack.getD j 0)

/-- Every strictly increasing sequence of positions at which the haystack spells the needle, case folded. -/
def alignments (needle haystack : Bytes) : List (List ℕ) :=
  (scoreAlign needle haystack).within (needle.length - 1) (haystack.length - 1)

/-- The score of an alignment: its body, and the trailing gap. -/
def alignScore (needle haystack : Bytes) (ps : List ℕ) : ℤ :=
  (scoreAlign needle haystack).padded kScoreGapTrailing (haystack.length - 1) ps

/-- The best score over all alignments, `⊥` when there is none. -/
noncomputable def bestScore (needle haystack : Bytes) : WithBot ℤ :=
  ((alignments needle haystack).map (alignScore needle haystack)).maximum

theorem scoreAlign_hit {needle haystack : Bytes} {i j : ℕ} :
    (scoreAlign needle haystack).hit i j = true ↔ toLower (needle.getD i 0) = toLower (haystack.getD j 0) := beq_iff_eq

theorem getD_lower (s : Bytes) (k : ℕ) : (lower s).getD k 0 = toLower (s.getD k 0) := by
  rw [lower, ← toLower_zero, List.getD_map, toLower_zero]

theorem getElem_lower (s : Bytes) (k : ℕ) (h : k < (lower s).length) : (lower s)[k] = toLower (s.getD k 0) := by
  rw [← getD_lower, List.getD_eq_getElem _ _ h]

theorem map_getD_range (s : Bytes) : (List.range s.length).map (fun j => toLower (s.getD j 0)) = lower s :=
  List.ext_getElem (by simp) (fun j _ h => by rw [getElem_lower, List.getElem_map, List.getElem_range])

/-- A list of columns that hits is one at which the haystack spells the needle. -/
theorem hits_iff_map_eq {needle haystack : Bytes} {ps : List ℕ} (hlen : ps.length = needle.length) :
    (scoreAlign needle haystack).hits ps = true ↔ lower needle = ps.map (fun j => toLower (haystack.getD j 0)) := by
  simp only [Align.hits, List.all_eq_true, scoreAlign_hit, List.forall_mem_iff_getElem, List.length_zipIdx,
    List.getElem_zipIdx, Nat.zero_add]
  constructor
  · intro h
    refine List.ext_getElem (by simp [hlen]) (fun i h0 h1 => ?_)
    rw [getElem_lower, List.getElem_map]
    exact h i (by simpa using h1)
  · intro h i hi
    have he := List.getElem_of_eq h (i := i) (by rw [length_lower, ← hlen]; exact hi)
    rwa [getElem_lower, List.getElem_map] at he

/-- **There is an alignment exactly when the needle is a subsequence**, case folded. -/
theorem bestScore_ne_bot_iff {needle haystack : Bytes} (hne : needle ≠ []) (hh : 0 < haystack.length) :
    bestScore needle haystack ≠ ⊥ ↔ (lower needle).Sublist (lower haystack) := by
  have hpos : 0 < needle.length := List.length_pos_iff.2 hne
  rw [bestScore, ne_eq, List.maximum_eq_bot, List.map_eq_nil_iff, ← map_getD_range haystack, List.sublist_map_iff,
    List.eq_nil_iff_forall_not_mem, not_forall_not]
  refine exists_congr (fun ps => ?_)
  simp only [alignments, Align.within, List.mem_filter, List.mem_sublistsLen, Nat.sub_add_cancel hpos,
    Nat.sub_add_cancel hh]
  constructor
  · rintro ⟨⟨hs, hlen⟩, hh⟩
    exact ⟨hs, (hits_iff_map_eq hlen).1 hh⟩
  · rintro ⟨hs, he⟩
    have hlen : ps.length = needle.length := by simpa using (congrArg List.length he).symm
    exact ⟨⟨hs, hlen⟩, (hits_iff_map_eq hlen).2 he⟩

/-! ## The constructor -/

theorem castInt_of_lt {n : ℕ} (h : n < 2 ^ 31) : castInt n = n := by
  unfold castInt
  exact Int.bmod_eq_of_le (by omega) (by omega)

theorem castInt_toNat {haystack : Bytes} (hmax : haystack.length ≤ kMatchMaxLen) :
    (castInt haystack.length).toNat = haystack.length := by
  unfold kMatchMaxLen at hmax
  rw [castInt_of_lt (by omega), Int.toNat_natCast]

theorem precomputeBonusFrom_getD : ∀ (lastCh : UInt8) (haystack : Bytes) (j : ℕ), j < haystack.length →
    (precomputeBonusFrom lastCh haystack).getD j 0
      = kBonusStates (kBonusIndex (haystack.getD j 0)) (if j = 0 then lastCh else haystack.getD (j - 1) 0)
  | _, [], _, h => absurd h (by simp)
  | _, _ :: _, 0, _ => rfl
  | _, ch :: haystack, j + 1, h => by
    have ih := precomputeBonusFrom_getD ch haystack j (by simpa using h)
    simp only [precomputeBonusFrom, List.getD_cons_succ, ih, Nat.add_one_ne_zero, if_false, Nat.add_sub_cancel]
    cases j <;> rfl

theorem precomputeBonus_getD {haystack : Bytes} {j : ℕ} (h : j < haystack.length) :
    (precomputeBonus haystack).getD j 0 = bonusAt haystack j :=
  precomputeBonusFrom_getD _ haystack j h

/-- The row of the last needle byte pays the trailing gap. -/
def rowGap (needle : Bytes) (row : ℕ) : ℤ := if row = needle.length - 1 then kScoreGapTrailing else kScoreGapInner

section

variable {needle haystack : Bytes}

theorem matchStruct_new (hlt : needle.length < haystack.length) (hmax : haystack.length ≤ kMatchMaxLen) :
    MatchStruct.new needle haystack =
      { mNeedleLen := needle.length, mHaystackLen := haystack.length, mLowerNeedle := lower needle,
        mLowerHaystack := lower haystack, mMatchBonus := precomputeBonus haystack } := by
  unfold kMatchMaxLen at hmax
  rw [MatchStruct.new, castInt_of_lt (by omega), castInt_of_lt (by omega), if_neg]
  simp only [kMatchMaxLen, not_or, not_lt]
  omega

theorem mNeedleLen_new (hlt : needle.length < haystack.length) (hmax : haystack.length ≤ kMatchMaxLen) :
    (MatchStruct.new needle haystack).mNeedleLen = needle.length := by rw [matchStruct_new hlt hmax]

theorem mHaystackLen_new (hlt : needle.length < haystack.length) (hmax : haystack.length ≤ kMatchMaxLen) :
    (MatchStruct.new needle haystack).mHaystackLen = haystack.length := by rw [matchStruct_new hlt hmax]

/-! ## A row -/

/-- The running maximum before column `k`. -/
def prevM (gap : ℤ) (d : ℕ → WithBot ℤ) : ℕ → WithBot ℤ
  | 0 => ⊥
  | k + 1 => Align.rowM gap d k

theorem rowM_eq_max_prevM (gap : ℤ) (d : ℕ → WithBot ℤ) (k : ℕ) :
    Align.rowM gap d k = max (d k) (prevM gap d k + gap) := by
  cases k with
  | zero => simp [prevM, Align.rowM]
  | succ k => rfl

/-- The rows a row of the table is computed from: those of the row above, where there is one. -/
def LastRows (needle haystack : Bytes) (row : ℕ) (lastD lastM : Row) : Prop :=
  ∀ r, row = r + 1 → ∀ j < haystack.length,
    lastD j = Flt.ofBot ((scoreAlign needle haystack).tabD r j) ∧
    lastM j = Flt.ofBot (Align.rowM kScoreGapInner ((scoreAlign needle haystack).tabD r) j)

/-- **What a cell writes**: the recurrence's cell, and the running maximum it leads to. -/
theorem matchCell_spec (hlt : needle.length < haystack.length) (hmax : haystack.length ≤ kMatchMaxLen)
    {row k : ℕ} {gap : ℤ} {lastD lastM : Row} {s : RowState} {prev : WithBot ℤ}
    (hlast : LastRows needle haystack row lastD lastM) (hk : k < haystack.length) (hprev : s.prevScore = Flt.ofBot prev) :
    (MatchStruct.new needle haystack).matchCell row (.fin gap) lastD lastM k s =
      { prevScore := Flt.ofBot (max ((scoreAlign needle haystack).tabD row k) (prev + gap)),
        currD := Function.update s.currD k (Flt.ofBot ((scoreAlign needle haystack).tabD row k)),
        currM := Function.update s.currM k
          (Flt.ofBot (max ((scoreAlign needle haystack).tabD row k) (prev + gap))) } := by
  rw [matchStruct_new hlt hmax]
  have hb : (precomputeBonus haystack).getD k 0 = bonusAt haystack k := precomputeBonus_getD hk
  by_cases hit : toLower (needle.getD row 0) = toLower (haystack.getD k 0)
  · have hh : (scoreAlign needle haystack).hit row k = true := scoreAlign_hit.2 hit
    simp only [MatchStruct.matchCell, getD_lower, if_pos hit, hb, hprev]
    -- the score of the cell, by the first row, the first column and the rest
    have hs : (if row = 0 then Flt.fin ((k : ℤ) * kScoreGapLeading) + .fin (bonusAt haystack k)
        else if k ≠ 0 then Flt.stdMax (lastM (k - 1) + .fin (bonusAt haystack k)) (lastD (k - 1) + .fin kScoreMatchConsecutive)
        else kScoreMin) = Flt.ofBot ((scoreAlign needle haystack).tabD row k) := by
      rcases row with _ | r
      · simp only [if_true, Align.tabD, hh, Flt.fin_add_fin, Flt.ofBot_coe]
        rw [mul_comm]
        rfl
      rcases k with _ | k
      · rfl
      · obtain ⟨hD, hM⟩ := hlast r rfl k (by omega)
        rw [if_neg (Nat.succ_ne_zero r), if_pos (Nat.succ_ne_zero k), Nat.add_sub_cancel, hD, hM, Flt.ofBot_add_fin,
          Flt.ofBot_add_fin, Flt.stdMax_ofBot, Align.tabD_succ r k hh]
        rfl
    rw [hs, Flt.ofBot_add_fin, Flt.stdMax_ofBot]
  · have hd : (scoreAlign needle haystack).tabD row k = ⊥ := by
      by_contra hd
      exact hit (scoreAlign_hit.1 (Align.tabD_ne_bot_hit hd))
    simp only [MatchStruct.matchCell, getD_lower, if_neg hit, hprev, hd, Flt.ofBot_add_fin, bot_le, max_eq_right,
      Flt.ofBot_bot, kScoreMin]

/-- **What `matchRow` writes**: the row of the recurrence and its running maximum, given those of the row above. -/
theorem matchRow_spec (hne : needle ≠ []) (hlt : needle.length < haystack.length) (hmax : haystack.length ≤ kMatchMaxLen)
    {row : ℕ} (currD currM : Row) {lastD lastM : Row} (hlast : LastRows needle haystack row lastD lastM) :
    ∀ j < haystack.length,
      ((MatchStruct.new needle haystack).matchRow row currD currM lastD lastM).currD j
        = Flt.ofBot ((scoreAlign needle haystack).tabD row j) ∧
      ((MatchStruct.new needle haystack).matchRow row currD currM lastD lastM).currM j
        = Flt.ofBot (Align.rowM (rowGap needle row) ((scoreAlign needle haystack).tabD row) j) := by
  have hpos : 0 < needle.length := List.length_pos_iff.2 hne
  have hgap : (if (row : ℤ) = (needle.length : ℤ) - 1 then kScoreGapTrailing else kScoreGapInner) = rowGap needle row := by
    unfold rowGap
    by_cases h : row = needle.length - 1
    · rw [if_pos h, if_pos (by omega)]
    · rw [if_neg h, if_neg (by omega)]
  simp only [MatchStruct.matchRow, mNeedleLen_new hlt hmax, mHaystackLen_new hlt hmax, hgap, Int.toNat_natCast]
  generalize rowGap needle row = gap
  -- after `k` rounds the first `k` cells are written, and the last maximum is carried
  have inv := forRange_inv (fun k (s : RowState) =>
      (∀ j < k, s.currD j = Flt.ofBot ((scoreAlign needle haystack).tabD row j) ∧
        s.currM j = Flt.ofBot (Align.rowM gap ((scoreAlign needle haystack).tabD row) j)) ∧
      s.prevScore = Flt.ofBot (prevM gap ((scoreAlign needle haystack).tabD row) k))
    ((MatchStruct.new needle haystack).matchCell row (.fin gap) lastD lastM) haystack.length
    (s := ⟨kScoreMin, currD, currM⟩) ⟨fun j hj => absurd hj (by omega), rfl⟩ ?_
  · exact inv.1
  rintro k hk s ⟨hcells, hprev⟩
  rw [matchCell_spec hlt hmax hlast hk hprev, ← rowM_eq_max_prevM]
  refine ⟨fun j hj => ?_, rfl⟩
  rcases Nat.lt_succ_iff_lt_or_eq.1 hj with hj | rfl
  · simpa [Function.update_of_ne (Nat.ne_of_lt hj)] using hcells j hj
  · simp

/-! ## The runs of rows -/

@[simp] theorem scoreRow_lastD (ms : MatchStruct) (i : ℕ) (b : Buffers) :
    (ms.scoreRow i b).lastD = (ms.matchRow i b.currD b.currM b.lastD b.lastM).currD := rfl

@[simp] theorem scoreRow_lastM (ms : MatchStruct) (i : ℕ) (b : Buffers) :
    (ms.scoreRow i b).lastM = (ms.matchRow i b.currD b.currM b.lastD b.lastM).currM := rfl

@[simp] theorem tableRow_lastD (ms : MatchStruct) (i : ℕ) (t : Tables) :
    (ms.tableRow i t).lastD = (ms.matchRow i (t.d i) (t.m i) t.lastD t.lastM).currD := rfl

@[simp] theorem tableRow_lastM (ms : MatchStruct) (i : ℕ) (t : Tables) :
    (ms.tableRow i t).lastM = (ms.matchRow i (t.d i) (t.m i) t.lastD t.lastM).currM := rfl

@[simp] theorem tableRow_d (ms : MatchStruct) (i : ℕ) (t : Tables) :
    (ms.tableRow i t).d = Function.update t.d i (ms.matchRow i (t.d i) (t.m i) t.lastD t.lastM).currD := rfl

@[simp] theorem tableRow_m (ms : MatchStruct) (i : ℕ) (t : Tables) :
    (ms.tableRow i t).m = Function.update t.m i (ms.matchRow i (t.d i) (t.m i) t.lastD t.lastM).currM := rfl

theorem lastRows_zero (lastD lastM : Row) : LastRows needle haystack 0 lastD lastM := fun _ h => by omega

/-- The last row written is row `i` of the recurrence. -/
def RowIs (needle haystack : Bytes) (i : ℕ) (d m : Row) : Prop :=
  ∀ j < haystack.length,
    d j = Flt.ofBot ((scoreAlign needle haystack).tabD i j) ∧
    m j = Flt.ofBot (Align.rowM (rowGap needle i) ((scoreAlign needle haystack).tabD i) j)

theorem RowIs.lastRows {i : ℕ} {d m : Row} (h : RowIs needle haystack i d m) (hi : i + 1 < needle.length) :
    LastRows needle haystack (i + 1) d m := by
  rintro r hr j hj
  obtain rfl : i = r := by omega
  have hg : rowGap needle i = kScoreGapInner := by rw [rowGap, if_neg (by omega)]
  exact hg ▸ h j hj

/-- **The last column of the last row is the best score.** -/
theorem RowIs.best {d m : Row} (hlt : needle.length < haystack.length)
    (h : RowIs needle haystack (needle.length - 1) d m) :
    m (haystack.length - 1) = Flt.ofBot (bestScore needle haystack) := by
  rw [(h _ (by omega)).2, rowGap, if_pos rfl, ← Align.bestWithin_eq_rowM]
  rfl

/-- **`score` is the best score**, whatever its buffers hold at first. -/
theorem scoreFrom_eq_best (init : Buffers) (hne : needle ≠ []) (hlt : needle.length < haystack.length)
    (hmax : haystack.length ≤ kMatchMaxLen) : scoreFrom init needle haystack = Flt.ofBot (bestScore needle haystack) := by
  have hpos : 0 < needle.length := List.length_pos_iff.2 hne
  have hcol : ((haystack.length : ℤ) - 1).toNat = haystack.length - 1 := by omega
  rw [scoreFrom, if_neg (by simpa using hne), if_neg (by omega), if_neg (by omega)]
  simp only [mNeedleLen_new hlt hmax, mHaystackLen_new hlt hmax, Int.toNat_natCast, hcol]
  have inv := forRange_inv (fun k (b : Buffers) => ∀ i, k = i + 1 → RowIs needle haystack i b.lastD b.lastM)
    (MatchStruct.new needle haystack).scoreRow needle.length (s := init) (fun i h => by omega) ?_
  · exact (inv (needle.length - 1) (by omega)).best hlt
  rintro k hk b hb i hi
  obtain rfl : k = i := by omega
  have hlast : LastRows needle haystack k b.lastD b.lastM := by
    cases k with
    | zero => exact lastRows_zero _ _
    | succ r => exact (hb r rfl).lastRows hk
  rw [scoreRow_lastD, scoreRow_lastM]
  exact matchRow_spec hne hlt hmax b.currD b.currM hlast

/-- The tables of `matchPositions` after its rows. -/
def tables (needle haystack : Bytes) : Tables :=
  forRange needle.length (MatchStruct.new needle haystack).tableRow
    { d := fun _ _ => .fin 0, m := fun _ _ => .fin 0, lastD := fun _ => .nan, lastM := fun _ => .nan }

/-- **The tables hold every row of the recurrence.** -/
theorem tables_rowIs (hne : needle ≠ []) (hlt : needle.length < haystack.length) (hmax : haystack.length ≤ kMatchMaxLen)
    {i : ℕ} (hi : i < needle.length) :
    RowIs needle haystack i ((tables needle haystack).d i) ((tables needle haystack).m i) := by
  have inv := forRange_inv (fun k (t : Tables) => (∀ i < k, RowIs needle haystack i (t.d i) (t.m i)) ∧
      ∀ i, k = i + 1 → RowIs needle haystack i t.lastD t.lastM)
    (MatchStruct.new needle haystack).tableRow needle.length
    (s := ⟨fun _ _ => .fin 0, fun _ _ => .fin 0, fun _ => .nan, fun _ => .nan⟩)
    ⟨fun i h => by omega, fun i h => by omega⟩ ?_
  · exact inv.1 i hi
  rintro k hk t ⟨hrows, hlast⟩
  have hrow : RowIs needle haystack k ((MatchStruct.new needle haystack).matchRow k (t.d k) (t.m k) t.lastD t.lastM).currD
      ((MatchStruct.new needle haystack).matchRow k (t.d k) (t.m k) t.lastD t.lastM).currM := by
    have hlast : LastRows needle haystack k t.lastD t.lastM := by
      cases k with
      | zero => exact lastRows_zero _ _
      | succ r => exact (hlast r rfl).lastRows hk
    exact matchRow_spec hne hlt hmax (t.d k) (t.m k) hlast
  constructor
  · intro i hi
    rcases Nat.lt_succ_iff_lt_or_eq.1 hi with hi | rfl
    · rw [tableRow_d, tableRow_m, Function.update_of_ne (Nat.ne_of_lt hi), Function.update_of_ne (Nat.ne_of_lt hi)]
      exact hrows i hi
    · rw [tableRow_d, tableRow_m, Function.update_self, Function.update_self]
      exact hrow
  · intro i hi
    obtain rfl : k = i := by omega
    rw [tableRow_lastD, tableRow_lastM]
    exact hrow

/-- What `matchPositions` computes when no early return applies. -/
theorem matchPositions_eq (hne : needle ≠ []) (hlt : needle.length < haystack.length) (hmax : haystack.length ≤ kMatchMaxLen)
    {positions : Option (List Bool)} (hp : ∀ p ∈ positions, p.length = haystack.length) :
    matchPositions needle haystack positions = some (Flt.ofBot (bestScore needle haystack),
      positions.map (backtrace (tables needle haystack).d (tables needle haystack).m needle.length haystack.length false)) := by
  have hpos : 0 < needle.length := List.length_pos_iff.2 hne
  have hany : ¬ positions.any (fun p => p.length ≠ haystack.length) = true := by
    cases positions with
    | none => simp
    | some p => simpa using hp p rfl
  rw [matchPositions, if_neg hany, if_neg (by simpa using hne)]
  simp only [mNeedleLen_new hlt hmax, mHaystackLen_new hlt hmax, Int.toNat_natCast]
  rw [if_neg (by omega), if_neg (by omega)]
  have hbest := (tables_rowIs hne hlt hmax (i := needle.length - 1) (by omega)).best hlt
  exact congrArg some (Prod.ext hbest rfl)

/-! ## score1 -/

theorem tabD_zero (j : ℕ) : (scoreAlign needle haystack).tabD 0 j =
    if toLower (needle.getD 0 0) = toLower (haystack.getD j 0) then
      (((j : ℤ) * kScoreGapLeading + bonusAt haystack j : ℤ) : WithBot ℤ) else ⊥ := by
  simp only [Align.tabD, scoreAlign_hit, mul_comm (j : ℤ)]
  rfl

/-- The loop of `score1` keeps the running maximum of the only row. -/
theorem score1Loop_spec : ∀ (rest : Bytes) (i : ℕ) (score : Score), i + 1 ≤ haystack.length →
    haystack.drop (i + 1) = rest →
    score = Flt.ofBot (Align.rowM kScoreGapTrailing ((scoreAlign needle haystack).tabD 0) i) →
    score1Loop (toLower (needle.getD 0 0)) (i + 1) (haystack.getD i 0) score rest
      = Flt.ofBot (Align.rowM kScoreGapTrailing ((scoreAlign needle haystack).tabD 0) (haystack.length - 1))
  | [], i, _, hi, hrest, hs => by
    have hlen : haystack.length - 1 = i := by
      have := congrArg List.length hrest
      rw [List.length_drop, List.length_nil] at this
      omega
    rw [hlen]
    exact hs
  | ch :: rest, i, _, hi, hrest, rfl => by
    have hlt : i + 1 < haystack.length := by
      have := congrArg List.length hrest
      rw [List.length_drop, List.length_cons] at this
      omega
    have hch : haystack.getD (i + 1) 0 = ch := by
      rw [List.getD_eq_getElem _ _ hlt]
      rw [List.drop_eq_getElem_cons hlt] at hrest
      exact (List.cons_eq_cons.1 hrest).1
    have hbonus : kBonusStates (kBonusIndex ch) (haystack.getD i 0) = bonusAt haystack (i + 1) := by
      rw [bonusAt, if_neg (Nat.succ_ne_zero i), Nat.add_sub_cancel, hch]
    rw [score1Loop]
    have ih := score1Loop_spec rest (i + 1)
    rw [hch] at ih
    refine ih _ hlt (by rw [← List.drop_drop, hrest, List.drop_one, List.tail_cons]) ?_
    rw [hbonus, Align.rowM, tabD_zero, hch, Flt.ofBot_add_fin, max_comm]
    by_cases hit : toLower (needle.getD 0 0) = toLower ch
    · rw [if_pos hit, if_pos hit, Flt.fin_add_fin, ← Flt.stdMax_ofBot]
      rfl
    · rw [if_neg hit, if_neg hit, max_eq_left bot_le]

/-- **`score1` is the scalar score** of a needle of one byte. -/
theorem score1_eq_scoreFrom (init : Buffers) (hone : needle.length = 1) :
    score1 needle haystack = scoreFrom init needle haystack := by
  have hne : needle ≠ [] := by rintro rfl; cases hone
  rcases Nat.lt_or_ge kMatchMaxLen haystack.length with hlong | hmax
  · rw [score1, if_pos (Or.inr (Or.inl hlong)), scoreFrom, if_neg (by simpa using hne), if_pos (Or.inl hlong)]
  rcases (by omega : haystack.length = 0 ∨ haystack.length = 1 ∨ 1 < haystack.length) with h0 | h1 | hlt
  · rw [score1, if_pos (Or.inr (Or.inr (by simpa using h0))), scoreFrom, if_neg (by simpa using hne), if_pos (by omega)]
  · have hemp : haystack.isEmpty = false := by cases haystack with
      | nil => cases h1
      | cons => rfl
    rw [score1, if_neg (by simp [hne, hemp, hmax]), if_pos h1, scoreFrom, if_neg (by simpa using hne), if_neg (by omega),
      if_pos (by omega)]
  · obtain ⟨ch, rest, rfl⟩ := List.exists_cons_of_length_pos (show 0 < haystack.length by omega)
    rw [scoreFrom_eq_best init hne (by omega) hmax, score1, if_neg (by simpa [hne] using hmax), if_neg (by omega)]
    have hstart : (if toLower (needle.getD 0 0) = toLower ch then Flt.fin (kBonusStates (kBonusIndex ch) '/'.toUInt8)
        else kScoreMin) = Flt.ofBot (Align.rowM kScoreGapTrailing ((scoreAlign needle (ch :: rest)).tabD 0) 0) := by
      rw [Align.rowM, tabD_zero]
      simp only [List.getD_cons_zero]
      by_cases hit : toLower (needle.getD 0 0) = toLower ch
      · rw [if_pos hit, if_pos hit]
        simp [bonusAt]
      · rw [if_neg hit, if_neg hit]
        rfl
    have hrow := @score1Loop_spec needle (ch :: rest) rest 0 _ (by simp) rfl hstart
    rw [List.getD_cons_zero] at hrow
    refine hrow.trans ?_
    rw [← Align.bestWithin_eq_rowM, bestScore, alignments, hone]
    rfl

/-- **`score1` and `score` agree on every needle of one byte**: the single running value ends as the last column of the only
row does, and the early returns agree. -/
theorem score1_eq_score (c : UInt8) (haystack : Bytes) (init : Buffers) : score1 [c] haystack = scoreFrom init [c] haystack :=
  score1_eq_scoreFrom init rfl

/-! ## Bounds -/

theorem kBonusStates_bounds (state : ℕ) (lastCh : UInt8) :
    0 ≤ kBonusStates state lastCh ∧ kBonusStates state lastCh ≤ 180 := by
  unfold kBonusStates kScoreMatchSlash kScoreMatchWord kScoreMatchDot kScoreMatchCapital
  split <;> try split_ifs
  all_goals decide

theorem bonusAt_bounds (j : ℕ) : 0 ≤ bonusAt haystack j ∧ bonusAt haystack j ≤ 180 := kBonusStates_bounds _ _

/-- A column used earns at most 200 and a column passed costs at most 2. -/
theorem ends_body_bounds {i j : ℕ} {ps : List ℕ} (h : (scoreAlign needle haystack).Ends i j ps) :
    -2 * (j : ℤ) ≤ (scoreAlign needle haystack).body ps ∧ (scoreAlign needle haystack).body ps ≤ 200 * (i + 1) := by
  induction h with
  | @first j h =>
    have hb := @bonusAt_bounds haystack j
    have e : (scoreAlign needle haystack).body [j] = -1 * (j : ℤ) + bonusAt haystack j := Align.body_singleton j
    rw [e]
    omega
  | @next i p q ps hp hlt h ih =>
    have hb := @bonusAt_bounds haystack q
    have hlink : -2 * ((q : ℤ) - p) ≤ (scoreAlign needle haystack).link p q ∧
        (scoreAlign needle haystack).link p q ≤ 200 := by
      change _ ≤ (if q = p + 1 then max (200 : ℤ) (bonusAt haystack q) else -2 * ((q : ℤ) - p - 1) + bonusAt haystack q) ∧
        (if q = p + 1 then max (200 : ℤ) (bonusAt haystack q) else -2 * ((q : ℤ) - p - 1) + bonusAt haystack q) ≤ _
      split <;> omega
    rw [Align.body_append_singleton ps p q hp.getLast?]
    push_cast
    omega

theorem bestScore_bounds {v : ℤ} (hne : needle ≠ []) (hlt : needle.length < haystack.length)
    (hmax : haystack.length ≤ kMatchMaxLen) (h : bestScore needle haystack = (v : WithBot ℤ)) :
    -2048 ≤ v ∧ v ≤ 204800 := by
  have hpos : 0 < needle.length := List.length_pos_iff.2 hne
  obtain ⟨ps, hps, rfl⟩ := List.mem_map.1 (List.maximum_mem h)
  obtain ⟨p, hp, he⟩ := Align.mem_within.1 hps
  obtain ⟨hlo, hhi⟩ := ends_body_bounds he
  have e : alignScore needle haystack ps
      = (scoreAlign needle haystack).body ps + -1 * (((haystack.length - 1 : ℕ) : ℤ) - p) := Align.padded_of_ends he _ _
  unfold kMatchMaxLen at hmax
  rw [e]
  omega

/-- **`score` by the two lengths**: the infinities are decided by them alone. -/
theorem score_eq (hne : needle ≠ []) : score needle haystack =
    if haystack.length > kMatchMaxLen ∨ needle.length > haystack.length then .negInf
    else if needle.length = haystack.length then .posInf
    else Flt.ofBot (bestScore needle haystack) := by
  by_cases hlong : haystack.length > kMatchMaxLen ∨ needle.length > haystack.length
  · rw [if_pos hlong, score, scoreFrom, if_neg (by simpa using hne), if_pos hlong]
    rfl
  rw [if_neg hlong]
  by_cases heq : needle.length = haystack.length
  · rw [if_pos heq, score, scoreFrom, if_neg (by simpa using hne), if_neg hlong, if_pos heq]
    rfl
  · rw [not_or, not_lt, not_lt] at hlong
    rw [if_neg heq, score, scoreFrom_eq_best _ hne (by omega) hlong.1]

end

/-- **The scores are the maximum over every alignment**, `-∞` when there is none: `score` whatever its uninitialised
buffers hold, and `matchPositions` with and without positions to mark. -/
theorem score_matchPositions_best (needle haystack : Bytes) (init : Buffers) (positions : Option (List Bool))
    (hne : needle ≠ []) (hlt : needle.length < haystack.length) (hmax : haystack.length ≤ kMatchMaxLen)
    (hp : ∀ p ∈ positions, p.length = haystack.length) :
    scoreFrom init needle haystack = Flt.ofBot (bestScore needle haystack) ∧
    (matchPositions needle haystack positions).map Prod.fst = some (Flt.ofBot (bestScore needle haystack)) := by
  refine ⟨scoreFrom_eq_best init hne hlt hmax, ?_⟩
  rw [matchPositions_eq hne hlt hmax hp]
  rfl

/-- `abc` in `a/babc`: the last three characters, two of them consecutive. -/
theorem bestScore_babc : bestScore [97, 98, 99] [97, 47, 98, 97, 98, 99] = ((397 : ℤ) : WithBot ℤ) := by
  have h := score_matchPositions_best [97, 98, 99] [97, 47, 98, 97, 98, 99]
    ⟨fun _ => .nan, fun _ => .nan, fun _ => .nan, fun _ => .nan⟩ (some (List.replicate 6 false))
    (by decide) (by decide) (by decide) (by simp)
  have e : scoreFrom ⟨fun _ => .nan, fun _ => .nan, fun _ => .nan, fun _ => .nan⟩ [97, 98, 99] [97, 47, 98, 97, 98, 99]
      = .fin 397 := by decide +kernel
  exact Flt.ofBot_eq_fin.1 (h.1.symm.trans e)

end Fzx
