import Fzx.ScoreBest
/-!
# ScoreContext — context that cannot take part in a match

A prefix without the needle's first byte and a suffix without its last one are in no alignment.  Where the prefix ends in a
`'/'`, or is empty, no bonus changes either, so such context costs its length and nothing else (`score_context`), and of
two candidates that differ only by it the shorter one ranks higher.
-/
namespace Fzx

open Lib

/-- What may stand before and behind a candidate without taking part in a match of the needle, ignoring case. -/
structure Context (needle p t : Bytes) : Prop where
  slash : p ≠ [] → p.getLast? = some '/'.toUInt8
  first : ∀ c ∈ p, toLower c ≠ toLower (needle.getD 0 0)
  last : ∀ c ∈ t, toLower c ≠ toLower (needle.getD (needle.length - 1) 0)

section

variable {needle p h t : Bytes}

theorem getD_context {j : ℕ} (hj : j < h.length) : (p ++ h ++ t).getD (j + p.length) 0 = h.getD j 0 := by
  rw [List.getD_append _ _ _ _ (by rw [List.length_append]; omega), List.getD_append_right _ _ _ _ (by omega),
    Nat.add_sub_cancel]

/-- The bonus of the first byte is what it is after a `'/'`, and of the others it is decided inside. -/
theorem bonusAt_context (hc : Context needle p t) {j : ℕ} (hj : j < h.length) :
    bonusAt (p ++ h ++ t) (j + p.length) = bonusAt h j := by
  have hprev : (if j + p.length = 0 then '/'.toUInt8 else (p ++ h ++ t).getD (j + p.length - 1) 0)
      = if j = 0 then '/'.toUInt8 else h.getD (j - 1) 0 := by
    cases j with
    | succ j =>
      rw [if_neg (by omega), if_neg (by omega), show j + 1 + p.length - 1 = j + p.length by omega, getD_context (by omega)]
      rfl
    | zero =>
      rw [Nat.zero_add, if_pos rfl]
      by_cases hp : p = []
      · rw [if_pos (List.length_eq_zero_iff.2 hp)]
      · have hpos : 0 < p.length := List.length_pos_iff.2 hp
        have hlast := hc.slash hp
        rw [List.getLast?_eq_getElem?] at hlast
        rw [if_neg (by omega), List.append_assoc, List.getD_append _ _ _ _ (by omega), List.getD_eq_getElem?_getD, hlast]
        rfl
  rw [bonusAt, bonusAt, getD_context hj, hprev]

theorem shift_context (hc : Context needle p t) (hpos : 0 < h.length) :
    Align.Shift (scoreAlign needle h) (scoreAlign needle (p ++ h ++ t)) p.length (h.length - 1) where
  leading := rfl
  inner := rfl
  consecutive := rfl
  bonus := fun j hj => bonusAt_context hc (by omega)
  hit := fun i j hj => by
    change (_ == toLower ((p ++ h ++ t).getD (j + p.length) 0)) = (_ == toLower (h.getD j 0))
    rw [getD_context (by omega)]

/-- The first column of an alignment is not in the prefix. -/
theorem first_not_prefix (hc : Context needle p t) {s : Bytes} {i j : ℕ} {ps : List ℕ}
    (he : (scoreAlign needle (p ++ s)).Ends i j ps) : ∀ q ∈ ps, p.length ≤ q := by
  induction he with
  | @first j hit =>
    intro q hq
    obtain rfl := List.mem_singleton.1 hq
    by_contra hlt
    have hlt : q < p.length := not_le.1 hlt
    rw [scoreAlign_hit, List.getD_append _ _ _ _ hlt, List.getD_eq_getElem _ _ hlt] at hit
    exact hc.first _ (List.getElem_mem hlt) hit.symm
  | @next i r q ps hp hlt hit ih =>
    intro q' hq'
    rcases List.mem_append.1 hq' with hq' | hq'
    · exact ih q' hq'
    · have hle := ih r (List.mem_of_getLast? hp.getLast?)
      rw [List.mem_singleton.1 hq']
      omega

/-- The last column of an alignment of the whole needle is not in the suffix. -/
theorem last_not_suffix (hc : Context needle p t) {s : Bytes} {j : ℕ} {ps : List ℕ}
    (he : (scoreAlign needle (s ++ t)).Ends (needle.length - 1) j ps) (hj : j < (s ++ t).length) : j < s.length := by
  by_contra hge
  have hge : s.length ≤ j := not_lt.1 hge
  have hit : (scoreAlign needle (s ++ t)).hit (needle.length - 1) j = true := by
    generalize needle.length - 1 = i at he
    cases he with
    | first hit => exact hit
    | next _ _ hit => exact hit
  rw [List.length_append] at hj
  have hlt : j - s.length < t.length := by omega
  rw [scoreAlign_hit, List.getD_append_right _ _ _ _ hge, List.getD_eq_getElem _ _ hlt] at hit
  exact hc.last _ (List.getElem_mem hlt) hit.symm

/-- **The best score in context.** -/
theorem bestScore_context (hc : Context needle p t) (hpos : 0 < h.length) :
    bestScore needle (p ++ h ++ t) = bestScore needle h + ((-(p.length + t.length) : ℤ) : WithBot ℤ) := by
  have hlen : (p ++ h ++ t).length = p.length + h.length + t.length := by rw [List.length_append, List.length_append]
  have hin : ∀ j ps, (scoreAlign needle (p ++ h ++ t)).Ends (needle.length - 1) j ps → j ≤ (p ++ h ++ t).length - 1 →
      ∀ q ∈ ps, p.length ≤ q ∧ q ≤ h.length - 1 + p.length := fun j ps he hj q hq => by
    have hlast := last_not_suffix hc he (by omega)
    have hmem := he.mem_le q hq
    rw [List.length_append] at hlast
    rw [List.append_assoc] at he
    have hfirst := first_not_prefix hc he q hq
    omega
  refine ((shift_context hc hpos).bestWithin kScoreGapTrailing (by omega) hin).trans ?_
  congr 2
  change (-1 : ℤ) * p.length + -1 * _ = _
  omega

end

/-- **Context only costs its length**, and the shorter of two contexts ranks higher. -/
theorem score_context (needle h : Bytes) (init init' : Buffers) (hne : needle ≠ []) (hlong : needle.length < h.length) :
    (∀ p t, Context needle p t → p.length + h.length + t.length ≤ kMatchMaxLen →
      scoreFrom init needle (p ++ h ++ t) = scoreFrom init' needle h + .fin (-(p.length + t.length))) ∧
    ∀ p t p' t', Context needle p t → Context needle p' t' → p'.length + h.length + t'.length ≤ kMatchMaxLen →
      p.length + t.length < p'.length + t'.length → scoreFrom init' needle h ≠ .negInf →
      Flt.lt (scoreFrom init needle (p' ++ h ++ t')) (scoreFrom init needle (p ++ h ++ t)) = true := by
  have hcost : ∀ p t, Context needle p t → p.length + h.length + t.length ≤ kMatchMaxLen →
      scoreFrom init needle (p ++ h ++ t) = scoreFrom init' needle h + .fin (-(p.length + t.length)) := by
    intro p t hc hmax
    have hlen : (p ++ h ++ t).length = p.length + h.length + t.length := by rw [List.length_append, List.length_append]
    rw [scoreFrom_eq_best init hne (by omega) (by omega), scoreFrom_eq_best init' hne hlong (by omega),
      bestScore_context hc (by omega), Flt.ofBot_add_fin]
  refine ⟨hcost, fun p t p' t' hc hc' hmax hlt hfin => ?_⟩
  obtain ⟨v, hv⟩ : ∃ v, scoreFrom init' needle h = .fin v := by
    rw [scoreFrom_eq_best init' hne hlong (by omega)] at hfin ⊢
    cases hb : bestScore needle h with
    | bot =>
      rw [hb] at hfin
      exact absurd rfl hfin
    | coe v => exact ⟨v, rfl⟩
  rw [hcost p t hc (by omega), hcost p' t' hc' hmax, hv, Flt.fin_add_fin, Flt.fin_add_fin, Flt.lt_fin, decide_eq_true_iff]
  omega

/-- `b` in `ab`, and in `/abc`. -/
theorem score_context_ab : score [98] [47, 97, 98, 99] = score [98] [97, 98] + .fin (-(1 + 1)) :=
  (score_context [98] [97, 98] _ _ (by decide) (by decide)).1 [47] [99] ⟨by decide, by decide +kernel, by decide +kernel⟩
    (by decide)

end Fzx
