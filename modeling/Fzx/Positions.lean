import Fzx.Match
import Fzx.ScoreBest
/-!
# Positions — when the marked alignment is the optimal one

The backtrace of `matchPositions` walks the rows upwards.  In vocabulary of the best scores it goes from a marked cell
to the adjacent cell where the running maximum of the marked cell's row ends in a consecutive match, and otherwise to
the latest peak of the row above (`BackStep`).  What it marks is always an alignment (`backtrace_spec`); its score is
the returned one exactly when no cell of the walk is one whose best alignment needs an adjacent cell the walk cannot
see (`Misses`): the flag is taken from `m[i][j]`, and the marked cell was a forced one with `d[i][j] < m[i][j]`.
Of whatever score, an alignment spells the needle (`matchPositions_spells`).
-/
namespace Fzx

open Lib

/-! ## The walk -/

/-- The best score of the rows up to `i` ending in column `j`. -/
noncomputable def bestAt (needle haystack : Bytes) (i j : ℕ) : WithBot ℤ := (scoreAlign needle haystack).bestEnd i j

/-- The best score of the rows up to `i` ending in column `j` or before, the gap up to `j` paid. -/
noncomputable def bestUpTo (needle haystack : Bytes) (i j : ℕ) : WithBot ℤ :=
  (scoreAlign needle haystack).bestWithin (rowGap needle i) i j

/-- `p` is the latest column up to `j` where row `i` reaches its running maximum. -/
def LatestPeak (needle haystack : Bytes) (i j p : ℕ) : Prop :=
  p ≤ j ∧ bestAt needle haystack i p ≠ ⊥ ∧ bestAt needle haystack i p = bestUpTo needle haystack i p ∧
    ∀ q, p < q → q ≤ j → bestAt needle haystack i q ≠ bestUpTo needle haystack i q

/-- One step of the backtrace, from a cell to one of the row above. -/
inductive BackStep (needle haystack : Bytes) : ℕ × ℕ → ℕ × ℕ → Prop
  | adjacent {i j : ℕ}
      (h : bestUpTo needle haystack (i + 1) (j + 1) = bestAt needle haystack i j + (kScoreMatchConsecutive : WithBot ℤ)) :
      BackStep needle haystack (i + 1, j + 1) (i, j)
  | left {i j p : ℕ}
      (h : bestUpTo needle haystack (i + 1) (j + 1) ≠ bestAt needle haystack i j + (kScoreMatchConsecutive : WithBot ℤ))
      (hp : LatestPeak needle haystack i j p) : BackStep needle haystack (i + 1, j + 1) (i, p)

/-- The cells the backtrace marks: the walk from the latest peak of the last row. -/
def OnWalk (needle haystack : Bytes) (c : ℕ × ℕ) : Prop :=
  ∃ p, LatestPeak needle haystack (needle.length - 1) (haystack.length - 1) p ∧
    Relation.ReflTransGen (BackStep needle haystack) (needle.length - 1, p) c

/-- The best alignment ending in `(i + 1, j + 1)` has to come from `(i, j)`, and neither is a peak of its row. -/
def Misses (needle haystack : Bytes) (i j : ℕ) : Prop :=
  bestUpTo needle haystack i j + (bonusAt haystack (j + 1) : WithBot ℤ)
      < bestAt needle haystack i j + (kScoreMatchConsecutive : WithBot ℤ) ∧
    bestAt needle haystack i j ≠ bestUpTo needle haystack i j ∧
    bestAt needle haystack (i + 1) (j + 1) ≠ bestUpTo needle haystack (i + 1) (j + 1)

/-- The marked positions. -/
def marked (marks : List Bool) : List ℕ := (List.range marks.length).filter (fun j => marks.getD j false)

/-- The marked positions are an alignment whose score is the returned one. -/
def MarksOptimal (needle haystack : Bytes) : Prop :=
  ∃ marks, matchPositions needle haystack (some (List.replicate haystack.length false)) =
      some (.fin (alignScore needle haystack (marked marks)), some marks) ∧
    marked marks ∈ alignments needle haystack

/-! ## Marks -/

/-- The marks of a list of positions, the last one set first. -/
def setMarks (ps : List ℕ) (marks : List Bool) : List Bool := ps.foldr (fun p ms => ms.set p true) marks

theorem length_setMarks (ps : List ℕ) (marks : List Bool) : (setMarks ps marks).length = marks.length := by
  induction ps with
  | nil => rfl
  | cons p ps ih => simpa [setMarks] using ih

theorem getD_setMarks (ps : List ℕ) (marks : List Bool) {j : ℕ} (hj : j < marks.length) :
    (setMarks ps marks).getD j false = (decide (j ∈ ps) || marks.getD j false) := by
  induction ps with
  | nil => simp [setMarks]
  | cons p ps ih =>
    have hlen := length_setMarks ps marks
    rw [List.getD_eq_getElem?_getD] at ih ⊢
    change (((setMarks ps marks).set p true)[j]?).getD false = _
    rw [List.getElem?_set]
    by_cases h : p = j
    · subst h; simp [hlen, hj]
    · rw [if_neg h, ih]
      simp [Ne.symm h]

/-- Marks are told by their positions. -/
theorem marks_ext {marks marks' : List Bool} (hlen : marks.length = marks'.length)
    (h : ∀ j < marks.length, marks.getD j false = marks'.getD j false) : marks = marks' := by
  refine List.ext_getElem hlen (fun j h0 h1 => ?_)
  have hj := h j h0
  rwa [List.getD_eq_getElem _ _ h0, List.getD_eq_getElem _ _ h1] at hj

theorem marked_setMarks {ps : List ℕ} {n : ℕ} (hpw : ps.Pairwise (· < ·)) (hlt : ∀ p ∈ ps, p < n) :
    marked (setMarks ps (List.replicate n false)) = ps := by
  refine List.Pairwise.eq_of_mem_iff (List.pairwise_lt_range.filter _) hpw (fun j => ?_)
  rw [marked, List.mem_filter, List.mem_range, length_setMarks, List.length_replicate]
  constructor
  · rintro ⟨hj, hm⟩
    rw [getD_setMarks ps _ (by simpa using hj)] at hm
    simpa [hj] using hm
  · intro hj
    refine ⟨hlt j hj, ?_⟩
    rw [getD_setMarks ps _ (by simpa using hlt j hj), decide_eq_true hj, Bool.true_or]

/-! ## A backtrace without a cell -/

theorem backtrace_zero_col (d m : ℕ → Row) (mr : Bool) (marks : List Bool) : ∀ (i : ℕ), backtrace d m i 0 mr marks = marks
  | 0 => rfl
  | i + 1 => by
    rw [backtrace, backtraceCell]
    exact backtrace_zero_col d m mr marks i

theorem backtraceCell_eq_none {d m : ℕ → Row} {i : ℕ} {mr : Bool} : ∀ {j : ℕ}, (∀ q < j, d i q = kScoreMin) →
    backtraceCell d m i mr j = none
  | 0, _ => rfl
  | j + 1, h => by
    rw [backtraceCell, if_neg (fun hc => hc.1 (h j (Nat.lt_succ_self j)))]
    exact backtraceCell_eq_none (fun q hq => h q (Nat.lt_succ_of_lt hq))

/-! ## The backtrace is the walk -/

theorem backtraceCell_eq_some {d m : ℕ → Row} {i : ℕ} {mr : Bool} : ∀ {j p : ℕ}, p < j →
    (d i p ≠ kScoreMin ∧ (mr = true ∨ d i p = m i p)) →
    (∀ q, p < q → q < j → ¬ (d i q ≠ kScoreMin ∧ (mr = true ∨ d i q = m i q))) →
    backtraceCell d m i mr j = some p
  | j + 1, p, hlt, hp, hq => by
    rcases Nat.lt_succ_iff_lt_or_eq.1 hlt with h | rfl
    · rw [backtraceCell, if_neg (hq j h (Nat.lt_succ_self j))]
      exact backtraceCell_eq_some h hp (fun q h0 h1 => hq q h0 (Nat.lt_succ_of_lt h1))
    · rw [backtraceCell, if_pos hp]

section

variable {needle haystack : Bytes}

theorem bestAt_eq (i j : ℕ) : bestAt needle haystack i j = (scoreAlign needle haystack).tabD i j :=
  Align.bestEnd_eq_tabD i j

theorem bestUpTo_eq (i j : ℕ) :
    bestUpTo needle haystack i j = Align.rowM (rowGap needle i) ((scoreAlign needle haystack).tabD i) j :=
  Align.bestWithin_eq_rowM _ i j

theorem bestAt_le_bestUpTo (i j : ℕ) : bestAt needle haystack i j ≤ bestUpTo needle haystack i j := by
  rw [bestAt_eq, bestUpTo_eq]
  exact Align.le_rowM _ _ _

theorem rowGap_of_lt {i : ℕ} (h : i + 1 < needle.length) : rowGap needle i = kScoreGapInner := by
  rw [rowGap, if_neg (by omega)]

/-- Every finite running maximum has a latest peak, where it comes from. -/
theorem exists_latestPeak {i j : ℕ} (h : bestUpTo needle haystack i j ≠ ⊥) : ∃ p, LatestPeak needle haystack i j p ∧
    bestUpTo needle haystack i j
      = bestAt needle haystack i p + ((rowGap needle i * ((j : ℤ) - p) : ℤ) : WithBot ℤ) := by
  simp only [LatestPeak, bestAt_eq, bestUpTo_eq] at h ⊢
  obtain ⟨p, hp, hd, hpeak, he, hlast⟩ := Align.rowM_attained _ _ j h
  exact ⟨p, ⟨hp, hd, hpeak, hlast⟩, he⟩

theorem LatestPeak.unique {i j p q : ℕ} (hp : LatestPeak needle haystack i j p) (hq : LatestPeak needle haystack i j q) :
    p = q := by
  rcases Nat.lt_trichotomy p q with h | h | h
  · exact absurd hq.2.2.1 (hp.2.2.2 q h hq.1)
  · exact h
  · exact absurd hp.2.2.1 (hq.2.2.2 p h hp.1)

theorem BackStep.unique {c e e' : ℕ × ℕ} (h : BackStep needle haystack c e) (h' : BackStep needle haystack c e') :
    e = e' := by
  cases h with
  | adjacent h =>
    cases h' with
    | adjacent h' => rfl
    | left h' _ => exact absurd h h'
  | left h hp =>
    cases h' with
    | adjacent h' => exact absurd h' h
    | left _ hq => rw [hp.unique hq]

/-- The walk goes on from every finite cell below the first row. -/
theorem exists_backStep {i j : ℕ} (hi : i + 1 < needle.length) (hd : bestAt needle haystack (i + 1) (j + 1) ≠ ⊥) :
    ∃ p, BackStep needle haystack (i + 1, j + 1) (i, p) := by
  by_cases h : bestUpTo needle haystack (i + 1) (j + 1) = bestAt needle haystack i j + (kScoreMatchConsecutive : WithBot ℤ)
  · exact ⟨j, .adjacent h⟩
  · have hm : bestUpTo needle haystack i j ≠ ⊥ := by
      intro h0
      have hle := @bestAt_le_bestUpTo needle haystack i j
      rw [bestUpTo_eq, rowGap_of_lt hi] at h0
      rw [bestUpTo_eq, rowGap_of_lt hi, h0, le_bot_iff, bestAt_eq] at hle
      rw [bestAt_eq] at hd
      refine hd ?_
      rw [Align.tabD_succ i j (Align.tabD_ne_bot_hit hd), hle]
      change max (Align.rowM kScoreGapInner _ j + _) _ = ⊥
      rw [h0, WithBot.bot_add, WithBot.bot_add, max_self]
    obtain ⟨p, hp, -⟩ := exists_latestPeak hm
    exact ⟨p, .left h hp⟩

theorem BackStep.finite {i j p : ℕ} (h : BackStep needle haystack (i + 1, j + 1) (i, p))
    (hd : bestAt needle haystack (i + 1) (j + 1) ≠ ⊥) : p ≤ j ∧ bestAt needle haystack i p ≠ ⊥ := by
  cases h with
  | adjacent h =>
    refine ⟨le_rfl, fun h0 => hd ?_⟩
    rw [h0, WithBot.bot_add] at h
    exact le_bot_iff.1 (h ▸ bestAt_le_bestUpTo _ _)
  | left h hp => exact ⟨hp.1, hp.2.1⟩

/-- **A step loses nothing unless the cell misses.** -/
theorem BackStep.lossless_iff {i j p : ℕ} (hi : i + 1 < needle.length)
    (h : BackStep needle haystack (i + 1, j + 1) (i, p)) (hd : bestAt needle haystack (i + 1) (j + 1) ≠ ⊥) :
    bestAt needle haystack i p + ((scoreAlign needle haystack).link p (j + 1) : WithBot ℤ)
      = bestAt needle haystack (i + 1) (j + 1) ↔ ¬ Misses needle haystack i j := by
  obtain ⟨hpj, hfin⟩ := h.finite hd
  have hit := Align.tabD_ne_bot_hit (@bestAt_eq needle haystack (i + 1) (j + 1) ▸ hd)
  have hinner : bestUpTo needle haystack i j = Align.rowM kScoreGapInner ((scoreAlign needle haystack).tabD i) j := by
    rw [bestUpTo_eq, rowGap_of_lt hi]
  have hcell : bestAt needle haystack (i + 1) (j + 1) =
      max (bestUpTo needle haystack i j + (bonusAt haystack (j + 1) : WithBot ℤ))
        (bestAt needle haystack i j + (kScoreMatchConsecutive : WithBot ℤ)) := by
    rw [bestAt_eq, hinner, bestAt_eq, Align.tabD_succ i j hit]
    rfl
  cases h with
  | adjacent h =>
    -- the running maximum of the cell's row is no greater than the cell
    have he : bestAt needle haystack (i + 1) (j + 1) = bestUpTo needle haystack (i + 1) (j + 1) :=
      le_antisymm (bestAt_le_bestUpTo _ _) (h ▸ hcell ▸ le_max_right _ _)
    refine iff_of_true ?_ (fun hm => hm.2.2 he)
    rw [bestAt_eq] at hfin
    rw [bestAt_eq, bestAt_eq]
    refine Align.tabD_add_link_adjacent hfin hit ?_
    rw [← bestAt_eq, ← bestAt_eq, he, h]
    rfl
  | left h hp =>
    rcases Nat.lt_or_ge p j with hlt | hge
    · have hlink : bestAt needle haystack i p + ((scoreAlign needle haystack).link p (j + 1) : WithBot ℤ)
          = bestUpTo needle haystack i j + (bonusAt haystack (j + 1) : WithBot ℤ) := by
        obtain ⟨q, hq, he⟩ := @exists_latestPeak needle haystack i j
          (fun h0 => hp.2.1 (by
            have hge := Align.rowM_ge kScoreGapInner ((scoreAlign needle haystack).tabD i) p j hpj
            rw [← hinner, h0, le_bot_iff, WithBot.add_eq_bot] at hge
            rw [bestAt_eq]
            exact hge.resolve_right (WithBot.coe_ne_bot)))
        obtain rfl := hp.unique hq
        rw [hinner, bestAt_eq, rowGap_of_lt hi] at he
        rw [bestAt_eq, hinner]
        exact Align.tabD_add_link_left hlt he
      rw [hlink, hcell, eq_comm, max_eq_left_iff, ← not_lt]
      refine not_congr ⟨fun hm => ⟨hm, hp.2.2.2 j hlt le_rfl, fun he => h ?_⟩, fun hm => hm.1⟩
      rw [← he, hcell, max_eq_right hm.le]
    · obtain rfl : p = j := by omega
      refine iff_of_true ?_ (fun hm => hm.2.1 hp.2.2.1)
      have hs : (scoreAlign needle haystack).Settled i p := by
        refine ⟨@bestAt_eq needle haystack i p ▸ hp.2.1, ?_⟩
        have he := hp.2.2.1
        rw [hinner, bestAt_eq] at he
        exact he
      rw [bestAt_eq, bestAt_eq]
      exact Align.tabD_add_link_settled hs hit

/-- **An alignment carried over a step** ends as good as its cell exactly when it was as good as the cell before and the
cell does not miss. -/
theorem BackStep.optimal_iff {i j p : ℕ} {ps : List ℕ} (hi : i + 1 < needle.length)
    (h : BackStep needle haystack (i + 1, j + 1) (i, p)) (hd : bestAt needle haystack (i + 1) (j + 1) ≠ ⊥)
    (hends : (scoreAlign needle haystack).Ends i p (ps ++ [p])) :
    (((scoreAlign needle haystack).body (ps ++ [p] ++ [j + 1]) : ℤ) : WithBot ℤ) = bestAt needle haystack (i + 1) (j + 1) ↔
      ¬ Misses needle haystack i j ∧
        (((scoreAlign needle haystack).body (ps ++ [p]) : ℤ) : WithBot ℤ) = bestAt needle haystack i p := by
  obtain ⟨hpj, hfin⟩ := h.finite hd
  have hit := Align.tabD_ne_bot_hit (@bestAt_eq needle haystack (i + 1) (j + 1) ▸ hd)
  rw [← h.lossless_iff hi hd, Align.body_append_singleton _ p _ hends.getLast?]
  -- neither the alignment nor the step exceeds what the tables hold
  have hle : (((scoreAlign needle haystack).body (ps ++ [p]) : ℤ) : WithBot ℤ) ≤ bestAt needle haystack i p := by
    rw [bestAt_eq]
    exact Align.body_le_tabD hends
  have hle' : bestAt needle haystack i p + ((scoreAlign needle haystack).link p (j + 1) : WithBot ℤ)
      ≤ bestAt needle haystack (i + 1) (j + 1) := by
    rw [bestAt_eq, bestAt_eq]
    exact Align.tabD_add_link_le hpj hit
  obtain ⟨x, hx⟩ := WithBot.ne_bot_iff_exists.1 hfin
  obtain ⟨y, hy⟩ := WithBot.ne_bot_iff_exists.1 hd
  rw [← hx] at hle hle' ⊢
  rw [← hy] at hle' ⊢
  norm_cast at hle hle' ⊢
  omega

/-! ## The whole walk -/

/-- What holds on a walk holds at its start and on the rest of it. -/
theorem BackStep.forall_walk {i j p : ℕ} (h : BackStep needle haystack (i + 1, j + 1) (i, p)) {P : ℕ → ℕ → Prop} :
    (∀ k l, Relation.ReflTransGen (BackStep needle haystack) (i + 1, j + 1) (k + 1, l + 1) → P k l) ↔
      P i j ∧ ∀ k l, Relation.ReflTransGen (BackStep needle haystack) (i, p) (k + 1, l + 1) → P k l := by
  constructor
  · intro hP
    exact ⟨hP i j .refl, fun k l hr => hP k l (.head h hr)⟩
  · rintro ⟨h0, hP⟩ k l hr
    rcases hr.cases_head with he | ⟨c, hc, hr⟩
    · cases he
      exact h0
    · rw [h.unique hc] at hP
      exact hP k l hr

/-- The flag `matchPositions` carries on from a marked cell. -/
def flagAt (needle haystack : Bytes) (i j : ℕ) : Bool :=
  decide (i ≠ 0 ∧ j ≠ 0 ∧ (tables needle haystack).m i j
    = (tables needle haystack).d (i - 1) (j - 1) + .fin kScoreMatchConsecutive)

section Tables

variable (hne : needle ≠ []) (hlt : needle.length < haystack.length) (hmax : haystack.length ≤ kMatchMaxLen)
include hne hlt hmax

theorem tables_d {i j : ℕ} (hi : i < needle.length) (hj : j < haystack.length) :
    (tables needle haystack).d i j = Flt.ofBot (bestAt needle haystack i j) := by
  rw [bestAt_eq]
  exact (tables_rowIs hne hlt hmax hi j hj).1

theorem tables_m {i j : ℕ} (hi : i < needle.length) (hj : j < haystack.length) :
    (tables needle haystack).m i j = Flt.ofBot (bestUpTo needle haystack i j) := by
  rw [bestUpTo_eq]
  exact (tables_rowIs hne hlt hmax hi j hj).2

theorem flagAt_succ {i j : ℕ} (hi : i + 1 < needle.length) (hj : j + 1 < haystack.length) :
    flagAt needle haystack (i + 1) (j + 1) = true ↔
      bestUpTo needle haystack (i + 1) (j + 1) = bestAt needle haystack i j + (kScoreMatchConsecutive : WithBot ℤ) := by
  rw [flagAt, decide_eq_true_iff, Nat.add_sub_cancel, Nat.add_sub_cancel, tables_m hne hlt hmax hi hj,
    tables_d hne hlt hmax (by omega) (by omega), Flt.ofBot_add_fin, Flt.ofBot_inj]
  simp

/-- The latest peak is where the inner loop stops when no match is required. -/
theorem backtraceCell_of_peak {i j p : ℕ} (hi : i < needle.length) (hj : j < haystack.length)
    (hp : LatestPeak needle haystack i j p) :
    backtraceCell (tables needle haystack).d (tables needle haystack).m i false (j + 1) = some p := by
  obtain ⟨hpj, hfin, hpeak, hlast⟩ := hp
  have hd : ∀ q ≤ j, (tables needle haystack).d i q = Flt.ofBot (bestAt needle haystack i q) :=
    fun q hq => tables_d hne hlt hmax hi (by omega)
  have hm : ∀ q ≤ j, (tables needle haystack).m i q = Flt.ofBot (bestUpTo needle haystack i q) :=
    fun q hq => tables_m hne hlt hmax hi (by omega)
  refine backtraceCell_eq_some (by omega) ⟨?_, .inr ?_⟩ (fun q h0 h1 => ?_)
  · rw [hd p hpj]
    exact fun h => hfin (Flt.ofBot_eq_negInf.1 h)
  · rw [hd p hpj, hm p hpj, hpeak]
  · rw [hd q (by omega), hm q (by omega), Flt.ofBot_inj]
    rintro ⟨-, h | h⟩
    · cases h
    · exact hlast q h0 (by omega) h

/-- **The inner loop makes the walk's step.** -/
theorem backtraceCell_of_step {i j p : ℕ} (hi : i + 1 < needle.length) (hj : j + 1 < haystack.length)
    (hd : bestAt needle haystack (i + 1) (j + 1) ≠ ⊥) (h : BackStep needle haystack (i + 1, j + 1) (i, p)) :
    backtraceCell (tables needle haystack).d (tables needle haystack).m i (flagAt needle haystack (i + 1) (j + 1)) (j + 1)
      = some p := by
  have hfin := (h.finite hd).2
  cases h with
  | adjacent h =>
    rw [(flagAt_succ hne hlt hmax hi hj).2 h]
    refine backtraceCell_eq_some (by omega) ⟨?_, .inl rfl⟩ (fun q h0 h1 => by omega)
    rw [tables_d hne hlt hmax (by omega) (by omega)]
    exact fun h => hfin (Flt.ofBot_eq_negInf.1 h)
  | left h hp =>
    rw [Bool.eq_false_iff.2 (fun hf => h ((flagAt_succ hne hlt hmax hi hj).1 hf))]
    exact backtraceCell_of_peak hne hlt hmax (by omega) (by omega) hp

/-- **From a finite cell the backtrace marks an alignment**, whose score is the cell's exactly when no cell on the walk
misses. -/
theorem backtrace_spec : ∀ (i j : ℕ), i < needle.length → j < haystack.length →
    bestAt needle haystack i j ≠ ⊥ → ∃ ps, (scoreAlign needle haystack).Ends i j (ps ++ [j]) ∧
      (∀ marks, backtrace (tables needle haystack).d (tables needle haystack).m i j (flagAt needle haystack i j) marks
        = setMarks ps marks) ∧
      ((((scoreAlign needle haystack).body (ps ++ [j]) : ℤ) : WithBot ℤ) = bestAt needle haystack i j ↔
        ∀ k l, Relation.ReflTransGen (BackStep needle haystack) (i, j) (k + 1, l + 1) → ¬ Misses needle haystack k l) := by
  intro i
  induction i with
  | zero =>
    intro j hi hj hd
    rw [bestAt_eq] at hd
    have hit := Align.tabD_ne_bot_hit hd
    refine ⟨[], .first hit, fun _ => rfl, iff_of_true ?_ (fun k l h => ?_)⟩
    · rw [bestAt_eq]
      simp [Align.body_singleton, Align.tabD, hit]
    · rcases h.cases_head with h | ⟨c, h, -⟩
      · cases h
      · cases h
  | succ i ih =>
    intro j hi hj hd
    obtain ⟨j, rfl⟩ : ∃ k, j = k + 1 := by
      cases j with
      | zero => exact absurd (bestAt_eq (i + 1) 0) hd
      | succ k => exact ⟨k, rfl⟩
    obtain ⟨p, hstep⟩ := exists_backStep hi hd
    obtain ⟨hpj, hfin⟩ := hstep.finite hd
    obtain ⟨ps, hends, hmarks, hopt⟩ := ih p (by omega) (by omega) hfin
    have hit := Align.tabD_ne_bot_hit (@bestAt_eq needle haystack (i + 1) (j + 1) ▸ hd)
    refine ⟨ps ++ [p], .next hends (by omega) hit, fun marks => ?_, ?_⟩
    · rw [backtrace, backtraceCell_of_step hne hlt hmax hi hj hd hstep]
      simp only [setMarks, List.foldr_append, List.foldr_cons, List.foldr_nil]
      exact hmarks (marks.set p true)
    · rw [hstep.forall_walk, ← hopt]
      exact hstep.optimal_iff hi hd hends

/-- **What `matchPositions` marks**: an alignment, of the returned score exactly when no cell on the walk misses.  It does
not depend on the marks already there. -/
theorem matchPositions_marks (hbest : bestScore needle haystack ≠ ⊥) : ∃ ps, ps ∈ alignments needle haystack ∧
    (∀ marks, marks.length = haystack.length → matchPositions needle haystack (some marks)
      = some (Flt.ofBot (bestScore needle haystack), some (setMarks ps marks))) ∧
    (bestScore needle haystack = (alignScore needle haystack ps : WithBot ℤ) ↔
      ∀ i j, OnWalk needle haystack (i + 1, j + 1) → ¬ Misses needle haystack i j) := by
  have hpos : 0 < needle.length := List.length_pos_iff.2 hne
  have hup : bestUpTo needle haystack (needle.length - 1) (haystack.length - 1) = bestScore needle haystack := by
    rw [bestUpTo, rowGap, if_pos rfl]
    rfl
  obtain ⟨p, hp, he⟩ := exists_latestPeak (hup ▸ hbest)
  obtain ⟨ps, hends, hmarks, hopt⟩ := backtrace_spec hne hlt hmax (needle.length - 1) p
    (by omega) (Nat.lt_of_le_of_lt hp.1 (by omega)) hp.2.1
  have hset : ∀ marks, backtrace (tables needle haystack).d (tables needle haystack).m needle.length haystack.length false
      marks = setMarks (ps ++ [p]) marks := fun marks => by
    have hcell := backtraceCell_of_peak hne hlt hmax (i := needle.length - 1) (by omega) (by omega) hp
    have hmarks := hmarks (marks.set p true)
    obtain ⟨i, hi⟩ : ∃ i, needle.length = i + 1 := ⟨needle.length - 1, by omega⟩
    obtain ⟨j, hj⟩ : ∃ j, haystack.length = j + 1 := ⟨haystack.length - 1, by omega⟩
    rw [hi, hj, Nat.add_sub_cancel, Nat.add_sub_cancel] at hcell
    rw [hi, Nat.add_sub_cancel] at hmarks
    rw [hi, hj, backtrace, hcell, setMarks, List.foldr_append, List.foldr_cons, List.foldr_nil]
    exact hmarks
  refine ⟨ps ++ [p], Align.mem_within.2 ⟨p, hp.1, hends⟩, fun marks hlen => ?_, ?_⟩
  · rw [matchPositions_eq hne hlt hmax (by rintro _ ⟨⟩; exact hlen), Option.map_some, hset]
  · rw [← hup, he, alignScore, Align.padded_of_ends hends, rowGap, if_pos rfl, WithBot.coe_add]
    rw [WithBot.add_right_inj WithBot.coe_ne_bot, eq_comm, hopt]
    constructor
    · rintro h i j ⟨q, hq, hr⟩
      exact h i j (hq.unique hp ▸ hr)
    · exact fun h i j hr => h i j ⟨p, hp, hr⟩

/-- **Without an alignment nothing is marked**: the last row has no finite cell to start from. -/
theorem matchPositions_unmarked (hbest : bestScore needle haystack = ⊥) (marks : List Bool)
    (hlen : marks.length = haystack.length) : matchPositions needle haystack (some marks) = some (.negInf, some marks) := by
  have hpos : 0 < needle.length := List.length_pos_iff.2 hne
  obtain ⟨i, hi⟩ : ∃ i, needle.length = i + 1 := ⟨needle.length - 1, by omega⟩
  have hrow : ∀ q < haystack.length, (tables needle haystack).d i q = kScoreMin := fun q hq => by
    have hge := Align.rowM_ge kScoreGapTrailing ((scoreAlign needle haystack).tabD i) q (haystack.length - 1) (by omega)
    have hbot : Align.rowM kScoreGapTrailing ((scoreAlign needle haystack).tabD i) (haystack.length - 1) = ⊥ := by
      rw [← Align.bestWithin_eq_rowM, ← hbest, bestScore, alignments, hi]
      rfl
    rw [hbot, le_bot_iff, WithBot.add_eq_bot] at hge
    rw [tables_d hne hlt hmax (by omega) hq, bestAt_eq, hge.resolve_right WithBot.coe_ne_bot]
    rfl
  rw [matchPositions_eq hne hlt hmax (by rintro p ⟨⟩; exact hlen), hbest, Option.map_some, hi, backtrace,
    backtraceCell_eq_none hrow]
  exact congrArg (fun p => some (Flt.negInf, some p)) (backtrace_zero_col _ _ _ _ i)

end Tables

/-! ## What is marked spells the needle -/

/-- The columns of an alignment. -/
theorem alignments_columns {ps : List ℕ} (hne : needle ≠ []) (hlt : needle.length < haystack.length)
    (h : ps ∈ alignments needle haystack) : ps.length = needle.length ∧ ps.Pairwise (· < ·) ∧
      (∀ p ∈ ps, p < haystack.length) ∧ lower (ps.map (fun j => haystack.getD j 0)) = lower needle := by
  have hpos : 0 < needle.length := List.length_pos_iff.2 hne
  obtain ⟨p, hp, hends⟩ := Align.mem_within.1 h
  have hlen : ps.length = needle.length := by
    rw [hends.length]
    omega
  refine ⟨hlen, hends.pairwise, fun q hq => ?_, ?_⟩
  · have := hends.mem_le q hq
    omega
  · rw [(hits_iff_map_eq hlen).1 hends.hits, lower, List.map_map]
    rfl

theorem setMarks_range (marks : List Bool) : setMarks (List.range marks.length) marks = marks.map (fun _ => true) := by
  refine marks_ext (by rw [length_setMarks, List.length_map]) (fun j hj => ?_)
  rw [length_setMarks] at hj
  rw [getD_setMarks _ _ hj, decide_eq_true (List.mem_range.2 hj), Bool.true_or,
    List.getD_eq_getElem _ _ (by rwa [List.length_map]), List.getElem_map]

theorem mNeedleLen_castInt (needle haystack : Bytes) :
    (MatchStruct.new needle haystack).mNeedleLen = castInt needle.length := by
  by_cases h : castInt haystack.length > kMatchMaxLen ∨ castInt needle.length > castInt haystack.length
  · rw [MatchStruct.new, if_pos h]
  · rw [MatchStruct.new, if_neg h]

theorem mHaystackLen_castInt (needle haystack : Bytes) :
    (MatchStruct.new needle haystack).mHaystackLen = castInt haystack.length := by
  by_cases h : castInt haystack.length > kMatchMaxLen ∨ castInt needle.length > castInt haystack.length
  · rw [MatchStruct.new, if_pos h]
  · rw [MatchStruct.new, if_neg h]

/-- **The columns marked spell the needle**, and they are the same whatever is marked already. -/
theorem matchPositions_columns (hne : needle ≠ []) (hmax : haystack.length ≤ kMatchMaxLen)
    (hsub : (lower needle).Sublist (lower haystack)) : ∃ ps : List ℕ, (ps.length = needle.length ∧ ps.Pairwise (· < ·) ∧
      (∀ p ∈ ps, p < haystack.length) ∧ lower (ps.map (fun j => haystack.getD j 0)) = lower needle) ∧
    ∃ score, ∀ marks, marks.length = haystack.length →
      matchPositions needle haystack (some marks) = some (score, some (setMarks ps marks)) := by
  have hle := hsub.length_le
  rw [length_lower, length_lower] at hle
  rcases Nat.lt_or_eq_of_le hle with hlt | heq
  · obtain ⟨ps, hps, hrun, -⟩ := matchPositions_marks hne hlt hmax ((bestScore_ne_bot_iff hne (by omega)).2 hsub)
    exact ⟨ps, alignments_columns hne hlt hps, _, hrun⟩
  · have hsame : lower needle = lower haystack := hsub.eq_of_length (by rw [length_lower, length_lower, heq])
    refine ⟨List.range haystack.length, ⟨?_, List.pairwise_lt_range, fun p => List.mem_range.1, ?_⟩, .posInf,
      fun marks hlen => ?_⟩
    · rw [List.length_range, heq]
    · rw [hsame, ← map_getD_range haystack, lower, List.map_map]
      rfl
    · have hmax' : haystack.length < 2 ^ 31 := Nat.lt_of_le_of_lt hmax (by decide)
      have hint : castInt needle.length = castInt haystack.length := congrArg castInt heq
      have hint' : castInt haystack.length = haystack.length := castInt_of_lt hmax'
      have hmem : needle.isEmpty = false := by simpa using hne
      rw [← hlen, setMarks_range, matchPositions, if_neg (by simpa using hlen), if_neg (by simp [hmem])]
      dsimp only
      rw [mNeedleLen_castInt, mHaystackLen_castInt, hint, hint', if_neg (by omega), if_pos rfl]
      rfl

/-- **What `matchPositions` marks spells the needle**, when the needle is a subsequence of the haystack; nothing is marked
in a longer haystack without it. -/
theorem matchPositions_spells (needle haystack : Bytes) (hne : needle ≠ []) (hmax : haystack.length ≤ kMatchMaxLen) :
    ((lower needle).Sublist (lower haystack) → ∃ score marks,
      matchPositions needle haystack (some (List.replicate haystack.length false)) = some (score, some marks) ∧
        marks.length = haystack.length ∧ (marked marks).length = needle.length ∧
        lower ((marked marks).map (fun j => haystack.getD j 0)) = lower needle) ∧
    (needle.length < haystack.length → ¬ (lower needle).Sublist (lower haystack) → ∃ score,
      matchPositions needle haystack (some (List.replicate haystack.length false)) =
        some (score, some (List.replicate haystack.length false))) := by
  refine ⟨fun hsub => ?_, fun hlt hno => ?_⟩
  · obtain ⟨ps, ⟨hlen, hpw, hin, hspell⟩, score, hrun⟩ := matchPositions_columns hne hmax hsub
    have hmarked := marked_setMarks hpw hin
    refine ⟨score, setMarks ps (List.replicate haystack.length false), hrun _ List.length_replicate, ?_, ?_, ?_⟩
    · rw [length_setMarks, List.length_replicate]
    · rw [hmarked, hlen]
    · rw [hmarked, hspell]
  · refine ⟨.negInf, matchPositions_unmarked hne hlt hmax ?_ _ List.length_replicate⟩
    by_contra hbest
    exact hno ((bestScore_ne_bot_iff hne (by omega)).1 hbest)

/-- `bd` is marked in `abcd`, and `db` is not. -/
theorem matchPositions_spells_abcd : ∃ score marks score',
    matchPositions [98, 100] [97, 98, 99, 100] (some (List.replicate 4 false)) = some (score, some marks) ∧
      (marked marks).length = 2 ∧
      matchPositions [100, 98] [97, 98, 99, 100] (some (List.replicate 4 false)) =
        some (score', some (List.replicate 4 false)) := by
  obtain ⟨score, marks, hrun, -, hlen, -⟩ :=
    (matchPositions_spells [98, 100] [97, 98, 99, 100] (by decide) (by decide)).1 (by decide)
  obtain ⟨score', hrun'⟩ :=
    (matchPositions_spells [100, 98] [97, 98, 99, 100] (by decide) (by decide)).2 (by decide) (by decide)
  exact ⟨score, marks, score', hrun, hlen, hrun'⟩

end

/-- **The marked alignment is optimal exactly when no cell on the walk misses.** -/
theorem marksOptimal_iff (needle haystack : Bytes) (hne : needle ≠ []) (hsub : (lower needle).Sublist (lower haystack))
    (hlt : needle.length < haystack.length) (hmax : haystack.length ≤ kMatchMaxLen) :
    MarksOptimal needle haystack ↔ ∀ i j, OnWalk needle haystack (i + 1, j + 1) → ¬ Misses needle haystack i j := by
  obtain ⟨ps, hal, hrun, hiff⟩ := matchPositions_marks hne hlt hmax ((bestScore_ne_bot_iff hne (by omega)).2 hsub)
  obtain ⟨-, hpw, hin, -⟩ := alignments_columns hne hlt hal
  have hmarked := marked_setMarks hpw hin
  have hrun := hrun (List.replicate haystack.length false) List.length_replicate
  rw [← hiff]
  constructor
  · rintro ⟨marks, hrun', -⟩
    rw [hrun, Option.some_inj, Prod.mk.injEq, Option.some_inj] at hrun'
    obtain ⟨hs, rfl⟩ := hrun'
    rw [hmarked] at hs
    exact Flt.ofBot_eq_fin.1 hs
  · intro h
    refine ⟨setMarks ps (List.replicate haystack.length false), ?_, hmarked.symm ▸ hal⟩
    rw [hrun, hmarked, h, Flt.ofBot_coe]

/-- The marks of `abc` in `a/babc`. -/
theorem matchPositions_marks_babc : matchPositions [97, 98, 99] [97, 47, 98, 97, 98, 99] (some (List.replicate 6 false))
    = some (.fin 397, some [true, false, false, false, true, true]) := by decide +kernel

/-- **`abc` in `a/babc`**: `b` and `c` are marked as consecutive, and the best alignment ending at that `b` starts at
the `a` before it, which is no peak of its row: the walk marks the first `a`, an alignment worth 374 where 397 is
returned. -/
theorem not_marksOptimal_babc : ¬ MarksOptimal [97, 98, 99] [97, 47, 98, 97, 98, 99] := by
  rintro ⟨marks, hrun, -⟩
  have he := hrun.symm.trans matchPositions_marks_babc
  rw [Option.some_inj, Prod.mk.injEq, Option.some_inj] at he
  obtain ⟨hs, rfl⟩ := he
  revert hs
  decide +kernel

/-- The walk of `abc` in `a/babc` misses a cell. -/
theorem onWalk_misses_babc : ∃ i j, OnWalk [97, 98, 99] [97, 47, 98, 97, 98, 99] (i + 1, j + 1) ∧
    Misses [97, 98, 99] [97, 47, 98, 97, 98, 99] i j := by
  by_contra h
  refine not_marksOptimal_babc ((marksOptimal_iff _ _ (by decide) (by decide) (by decide) (by decide)).2 ?_)
  exact fun i j hw hm => h ⟨i, j, hw, hm⟩

/-- The marked alignment is not always optimal. -/
theorem not_marksOptimal : ¬ ∀ needle haystack : Bytes, needle ≠ [] → (lower needle).Sublist (lower haystack) →
    needle.length < haystack.length → haystack.length ≤ kMatchMaxLen → MarksOptimal needle haystack :=
  fun h => not_marksOptimal_babc (h _ _ (by decide) (by decide) (by decide) (by decide))

end Fzx
