import Mathlib
/-!
# Align — best alignments of rows against columns

Rows `0, 1, …` are aligned with strictly increasing columns, row `k` only with a column it hits.  An alignment pays
`leading` for every column before its first, earns the bonus of every column it uses, and between two columns pays
`inner` for every column skipped, or earns at least `consecutive` where none is.  `tabD i j` is the recurrence for the
best alignment of rows `0 … i` whose last column is `j`, `tabM` the best with a last column at most `j`; both are the
maxima over the enumerated alignments (`tabD_eq_bestEnd`, `rowM_eq_bestWithin`).
-/
namespace Lib

/-- The weights and the matches of an alignment problem. -/
structure Align where
  leading : ℤ
  inner : ℤ
  consecutive : ℤ
  bonus : ℕ → ℤ
  hit : ℕ → ℕ → Bool

namespace Align

variable (A : Align)

/-- What column `q` adds after column `p`. -/
def link (p q : ℕ) : ℤ :=
  if q = p + 1 then max A.consecutive (A.bonus q) else A.inner * ((q : ℤ) - p - 1) + A.bonus q

/-- What the columns after `p` add. -/
def chain : ℕ → List ℕ → ℤ
  | _, [] => 0
  | p, q :: qs => A.link p q + chain q qs

/-- The score of an alignment up to its last column. -/
def body : List ℕ → ℤ
  | [] => 0
  | p :: ps => A.leading * p + A.bonus p + A.chain p ps

/-- Every row hits its column. -/
def hits (ps : List ℕ) : Bool := ps.zipIdx.all (fun q => A.hit q.2 q.1)

/-- The alignments of rows `0 … i` inside columns `0 … j`. -/
def within (i j : ℕ) : List (List ℕ) := ((List.range (j + 1)).sublistsLen (i + 1)).filter A.hits

/-- The alignments of rows `0 … i` whose last column is `j`. -/
def ends (i j : ℕ) : List (List ℕ) := (A.within i j).filter (fun ps => ps.getLast? == some j)

/-- The best score up to the last column, over the alignments ending at column `j`. -/
noncomputable def bestEnd (i j : ℕ) : WithBot ℤ := ((A.ends i j).map A.body).maximum

/-- The score of an alignment inside columns `0 … j` that pays `gap` for every column after its last. -/
def padded (gap : ℤ) (j : ℕ) (ps : List ℕ) : ℤ := A.body ps + gap * ((j : ℤ) - (ps.getLast?.getD 0 : ℕ))

/-- The best score of an alignment inside columns `0 … j`. -/
noncomputable def bestWithin (gap : ℤ) (i j : ℕ) : WithBot ℤ := ((A.within i j).map (A.padded gap j)).maximum

/-! ## The recurrence -/

/-- The running maximum of a row that loses `gap` at every column. -/
def rowM (gap : ℤ) (d : ℕ → WithBot ℤ) : ℕ → WithBot ℤ
  | 0 => d 0
  | j + 1 => max (d (j + 1)) (rowM gap d j + gap)

def tabD : ℕ → ℕ → WithBot ℤ
  | 0 => fun j => if A.hit 0 j then ((A.leading * j + A.bonus j : ℤ) : WithBot ℤ) else ⊥
  | i + 1 => fun j => match j with
    | 0 => ⊥
    | j + 1 => if A.hit (i + 1) (j + 1) then
        max (rowM A.inner (tabD i) j + (A.bonus (j + 1) : WithBot ℤ)) (tabD i j + (A.consecutive : WithBot ℤ)) else ⊥

/-! ## Alignments by their last column -/

/-- `ps` aligns rows `0 … i` and ends at column `j`. -/
inductive Ends : ℕ → ℕ → List ℕ → Prop
  | first {j : ℕ} (h : A.hit 0 j = true) : Ends 0 j [j]
  | next {i p q : ℕ} {ps : List ℕ} (hp : Ends i p ps) (hlt : p < q) (h : A.hit (i + 1) q = true) :
      Ends (i + 1) q (ps ++ [q])

variable {A}

theorem Ends.getLast? {i j : ℕ} {ps : List ℕ} (h : A.Ends i j ps) : ps.getLast? = some j := by
  cases h <;> simp

theorem Ends.length {i j : ℕ} {ps : List ℕ} (h : A.Ends i j ps) : ps.length = i + 1 := by
  induction h with
  | first => rfl
  | next _ _ _ ih => simp [ih]

theorem Ends.mem_le {i j : ℕ} {ps : List ℕ} (h : A.Ends i j ps) : ∀ p ∈ ps, p ≤ j := by
  induction h with
  | first => simp
  | next _ hlt _ ih =>
    intro p hp
    rcases List.mem_append.1 hp with hp | hp
    · exact Nat.le_of_lt (Nat.lt_of_le_of_lt (ih p hp) hlt)
    · exact Nat.le_of_eq (List.mem_singleton.1 hp)

theorem Ends.pairwise {i j : ℕ} {ps : List ℕ} (h : A.Ends i j ps) : ps.Pairwise (· < ·) := by
  induction h with
  | first => simp
  | next hp hlt _ ih =>
    refine List.pairwise_append.2 ⟨ih, by simp, fun a ha b hb => ?_⟩
    rw [List.mem_singleton.1 hb]
    exact Nat.lt_of_le_of_lt (hp.mem_le a ha) hlt

theorem hits_append_singleton (ps : List ℕ) (q : ℕ) :
    A.hits (ps ++ [q]) = (A.hits ps && A.hit ps.length q) := by
  simp [hits, List.zipIdx_append]

theorem Ends.hits {i j : ℕ} {ps : List ℕ} (h : A.Ends i j ps) : A.hits ps = true := by
  induction h with
  | first h => simpa [Align.hits] using h
  | next hp _ h ih => rw [hits_append_singleton, ih, hp.length, h]; rfl

/-- **An increasing list of columns whose rows all hit is an alignment ending at its last column.** -/
theorem ends_of_hits : ∀ (i : ℕ) (ps : List ℕ) (j : ℕ), ps.length = i + 1 → ps.Pairwise (· < ·) →
    A.hits ps = true → ps.getLast? = some j → A.Ends i j ps := by
  intro i
  induction i with
  | zero =>
    intro ps j hlen _ hh hl
    obtain ⟨q, rfl⟩ := List.length_eq_one_iff.1 hlen
    obtain rfl : q = j := by simpa using hl
    exact .first (by simpa [Align.hits] using hh)
  | succ i ih =>
    intro ps j hlen hpw hh hl
    obtain ⟨qs, q, rfl⟩ := List.eq_nil_or_concat' ps |>.resolve_left (fun h => by simp [h] at hlen)
    obtain rfl : q = j := by simpa using hl
    have hqlen : qs.length = i + 1 := by simpa using hlen
    rw [hits_append_singleton, Bool.and_eq_true, hqlen] at hh
    obtain ⟨hpw1, -, hlt⟩ := List.pairwise_append.1 hpw
    obtain ⟨p, hp⟩ : ∃ p, qs.getLast? = some p :=
      Option.ne_none_iff_exists'.1 (fun h => by simp [List.getLast?_eq_none_iff.1 h] at hqlen)
    exact .next (ih qs p hqlen hpw1 hh.1 hp) (hlt p (List.mem_of_getLast? hp) q (by simp)) hh.2

theorem sublist_range_iff {n : ℕ} {ps : List ℕ} :
    ps.Sublist (List.range n) ↔ ps.Pairwise (· < ·) ∧ ∀ p ∈ ps, p < n := by
  constructor
  · intro h
    exact ⟨List.pairwise_lt_range.sublist h, fun p hp => List.mem_range.1 (h.subset hp)⟩
  · rintro ⟨hpw, hlt⟩
    refine List.sublist_of_subperm_of_pairwise (r := (· < ·)) (List.subperm_of_subset (hpw.imp Nat.ne_of_lt) ?_) hpw
      List.pairwise_lt_range
    exact fun p hp => List.mem_range.2 (hlt p hp)

theorem mem_ends {i j : ℕ} {ps : List ℕ} : ps ∈ A.ends i j ↔ A.Ends i j ps := by
  simp only [ends, within, List.mem_filter, List.mem_sublistsLen, sublist_range_iff, beq_iff_eq]
  constructor
  · rintro ⟨⟨⟨⟨hpw, -⟩, hlen⟩, hh⟩, hl⟩
    exact ends_of_hits i ps j hlen hpw hh hl
  · intro h
    exact ⟨⟨⟨⟨h.pairwise, fun p hp => Nat.lt_succ_of_le (h.mem_le p hp)⟩, h.length⟩, h.hits⟩, h.getLast?⟩

theorem mem_within {i j : ℕ} {ps : List ℕ} : ps ∈ A.within i j ↔ ∃ p ≤ j, A.Ends i p ps := by
  simp only [within, List.mem_filter, List.mem_sublistsLen, sublist_range_iff]
  constructor
  · rintro ⟨⟨⟨hpw, hle⟩, hlen⟩, hh⟩
    obtain ⟨p, hp⟩ : ∃ p, ps.getLast? = some p :=
      Option.ne_none_iff_exists'.1 (fun h => by simp [List.getLast?_eq_none_iff.1 h] at hlen)
    exact ⟨p, Nat.lt_succ_iff.1 (hle p (List.mem_of_getLast? hp)), ends_of_hits i ps p hlen hpw hh hp⟩
  · rintro ⟨p, hp, h⟩
    exact ⟨⟨⟨h.pairwise, fun q hq => Nat.lt_succ_of_le ((h.mem_le q hq).trans hp)⟩, h.length⟩, h.hits⟩

theorem chain_append_singleton : ∀ (ps : List ℕ) (p l q : ℕ), (p :: ps).getLast? = some l →
    A.chain p (ps ++ [q]) = A.chain p ps + A.link l q
  | [], p, l, q, h => by
    obtain rfl : p = l := by simpa using h
    simp [chain]
  | r :: ps, p, l, q, h => by
    rw [List.cons_append, chain, chain, chain_append_singleton ps r l q (by simpa using h)]
    ring

/-- **A column more adds its link from the last one.** -/
theorem body_append_singleton (ps : List ℕ) (l q : ℕ) (h : ps.getLast? = some l) :
    A.body (ps ++ [q]) = A.body ps + A.link l q := by
  cases ps with
  | nil => cases h
  | cons p ps =>
    rw [List.cons_append, body, body, chain_append_singleton ps p l q h]
    ring

/-! ## The recurrence is the maximum -/

theorem rowM_ge (gap : ℤ) (d : ℕ → WithBot ℤ) (p : ℕ) : ∀ (j : ℕ), p ≤ j →
    d p + ((gap * ((j : ℤ) - p) : ℤ) : WithBot ℤ) ≤ rowM gap d j := by
  intro j hj
  induction j, hj using Nat.le_induction with
  | base =>
    cases p <;> simp [rowM]
  | succ j hj ih =>
    have e : ((gap * (((j + 1 : ℕ) : ℤ) - p) : ℤ) : WithBot ℤ) = ((gap * ((j : ℤ) - p) : ℤ) : WithBot ℤ) + gap := by
      rw [← WithBot.coe_add]; congr 1; push_cast; ring
    rw [e, ← add_assoc, rowM]
    exact le_max_of_le_right (add_le_add_left ih _)

/-- **A finite running maximum is attained**, latest at a column where the row equals it. -/
theorem rowM_attained (gap : ℤ) (d : ℕ → WithBot ℤ) : ∀ (j : ℕ), rowM gap d j ≠ ⊥ →
    ∃ p ≤ j, d p ≠ ⊥ ∧ d p = rowM gap d p ∧ rowM gap d j = d p + ((gap * ((j : ℤ) - p) : ℤ) : WithBot ℤ) ∧
      ∀ q, p < q → q ≤ j → d q ≠ rowM gap d q := by
  intro j
  induction j with
  | zero => exact fun h => ⟨0, le_rfl, h, rfl, by simp [rowM], fun q h0 h1 => absurd h1 (by omega)⟩
  | succ j ih =>
    intro h
    by_cases hd : d (j + 1) = rowM gap d (j + 1)
    · exact ⟨j + 1, le_rfl, hd ▸ h, hd, by simp [← hd], fun q h0 h1 => absurd h1 (by omega)⟩
    · have hr : rowM gap d (j + 1) = rowM gap d j + gap := by
        rcases max_choice (d (j + 1)) (rowM gap d j + gap) with hm | hm
        · exact absurd hm.symm hd
        · exact hm
      have hne : rowM gap d j ≠ ⊥ := fun h0 => h (by rw [hr, h0, WithBot.bot_add])
      obtain ⟨p, hp, hdp, hset, he, hlast⟩ := ih hne
      refine ⟨p, by omega, hdp, hset, ?_, fun q h0 h1 => ?_⟩
      · rw [hr, he, add_assoc, ← WithBot.coe_add]
        congr 2; push_cast; ring
      · rcases Nat.lt_or_ge j q with hq | hq
        · obtain rfl : q = j + 1 := by omega
          exact hd
        · exact hlast q h0 hq

theorem le_rowM (gap : ℤ) (d : ℕ → WithBot ℤ) (j : ℕ) : d j ≤ rowM gap d j := by
  cases j <;> simp [rowM]

theorem body_singleton (p : ℕ) : A.body [p] = A.leading * p + A.bonus p := by simp [body, chain]

theorem tabD_succ (i j : ℕ) (h : A.hit (i + 1) (j + 1) = true) : A.tabD (i + 1) (j + 1) =
    max (rowM A.inner (A.tabD i) j + (A.bonus (j + 1) : WithBot ℤ)) (A.tabD i j + (A.consecutive : WithBot ℤ)) := by
  simp [tabD, h]

theorem tabD_ne_bot_hit {i j : ℕ} (h : A.tabD i j ≠ ⊥) : A.hit i j = true := by
  cases i with
  | zero => by_contra hh; simp [tabD, hh] at h
  | succ i =>
    cases j with
    | zero => simp [tabD] at h
    | succ j => by_contra hh; simp [tabD, hh] at h

/-- **A predecessor adds its link at most.** -/
theorem tabD_add_link_le {i p j : ℕ} (hpj : p ≤ j) (h : A.hit (i + 1) (j + 1) = true) :
    A.tabD i p + (A.link p (j + 1) : WithBot ℤ) ≤ A.tabD (i + 1) (j + 1) := by
  rw [tabD_succ i j h]
  rcases Nat.lt_or_ge p j with hlt | hge
  · rw [link, if_neg (by omega)]
    refine le_max_of_le_left ?_
    have e : ((A.inner * (((j + 1 : ℕ) : ℤ) - p - 1) + A.bonus (j + 1) : ℤ) : WithBot ℤ)
        = ((A.inner * ((j : ℤ) - p) : ℤ) : WithBot ℤ) + (A.bonus (j + 1) : WithBot ℤ) := by
      rw [← WithBot.coe_add]; congr 1; push_cast; ring
    rw [e, ← add_assoc]
    exact add_le_add_left (rowM_ge A.inner (A.tabD i) p j hpj) _
  · obtain rfl : p = j := by omega
    rw [link, if_pos rfl, WithBot.coe_max, add_max]
    exact max_le (le_max_right _ _) (le_max_of_le_left (add_le_add_left (le_rowM _ _ _) _))

theorem body_le_tabD {i j : ℕ} {ps : List ℕ} (h : A.Ends i j ps) : (A.body ps : WithBot ℤ) ≤ A.tabD i j := by
  induction h with
  | @first j h => simp [tabD, h, body_singleton]
  | @next i p q ps hp hlt h ih =>
    obtain ⟨j, rfl⟩ : ∃ j, q = j + 1 := ⟨q - 1, by omega⟩
    rw [body_append_singleton ps p (j + 1) hp.getLast?, WithBot.coe_add]
    exact (add_le_add_left ih _).trans (tabD_add_link_le (by omega) h)

/-! ### What a cell's predecessor adds -/

/-- A column of row `i` at which the row equals its running maximum. -/
def Settled (A : Align) (i j : ℕ) : Prop := A.tabD i j ≠ ⊥ ∧ A.tabD i j = rowM A.inner (A.tabD i) j

/-- **The adjacent predecessor of a consecutive cell loses nothing.** -/
theorem tabD_add_link_adjacent {i j : ℕ} (hd : A.tabD i j ≠ ⊥) (hh : A.hit (i + 1) (j + 1) = true)
    (h : A.tabD (i + 1) (j + 1) = A.tabD i j + (A.consecutive : WithBot ℤ)) :
    A.tabD i j + (A.link j (j + 1) : WithBot ℤ) = A.tabD (i + 1) (j + 1) := by
  have hle : A.tabD i j + (A.bonus (j + 1) : WithBot ℤ) ≤ A.tabD (i + 1) (j + 1) := by
    rw [tabD_succ i j hh]
    exact le_max_of_le_left (add_le_add_left (le_rowM _ _ _) _)
  obtain ⟨z, hz⟩ := WithBot.ne_bot_iff_exists.1 hd
  rw [h, ← hz, ← WithBot.coe_add, ← WithBot.coe_add, WithBot.coe_le_coe] at hle
  rw [link, if_pos rfl, h, max_eq_left (by omega)]

/-- **The latest settled predecessor at the column itself loses nothing.** -/
theorem tabD_add_link_settled {i j : ℕ} (hs : A.Settled i j) (hh : A.hit (i + 1) (j + 1) = true) :
    A.tabD i j + (A.link j (j + 1) : WithBot ℤ) = A.tabD (i + 1) (j + 1) := by
  rw [link, if_pos rfl, tabD_succ i j hh, ← hs.2, WithBot.coe_max, add_max, max_comm]

/-- **The latest settled predecessor further left adds the running maximum and the bonus.** -/
theorem tabD_add_link_left {i p j : ℕ} (hp : p < j)
    (h : rowM A.inner (A.tabD i) j = A.tabD i p + ((A.inner * ((j : ℤ) - p) : ℤ) : WithBot ℤ)) :
    A.tabD i p + (A.link p (j + 1) : WithBot ℤ) = rowM A.inner (A.tabD i) j + (A.bonus (j + 1) : WithBot ℤ) := by
  rw [link, if_neg (by omega), h, add_assoc, ← WithBot.coe_add]
  congr 2; push_cast; ring

/-- **A finite cell is the score of an alignment.** -/
theorem tabD_attained : ∀ (i j : ℕ), A.tabD i j ≠ ⊥ → ∃ ps, A.Ends i j ps ∧ A.tabD i j = (A.body ps : WithBot ℤ) := by
  intro i
  induction i with
  | zero =>
    intro j h
    have hh := tabD_ne_bot_hit h
    exact ⟨[j], .first hh, by simp [tabD, hh, body_singleton]⟩
  | succ i ih =>
    intro j h
    have hh := tabD_ne_bot_hit h
    cases j with
    | zero => simp [tabD] at h
    | succ j =>
      have extend : ∀ p ≤ j, A.tabD i p ≠ ⊥ → A.tabD i p + (A.link p (j + 1) : WithBot ℤ) = A.tabD (i + 1) (j + 1) →
          ∃ ps, A.Ends (i + 1) (j + 1) ps ∧ A.tabD (i + 1) (j + 1) = (A.body ps : WithBot ℤ) := by
        intro p hp hd he
        obtain ⟨ps, hps, hv⟩ := ih p hd
        refine ⟨ps ++ [j + 1], .next hps (by omega) hh, ?_⟩
        rw [body_append_singleton ps p (j + 1) hps.getLast?, WithBot.coe_add, ← hv, he]
      rcases max_choice (rowM A.inner (A.tabD i) j + (A.bonus (j + 1) : WithBot ℤ))
        (A.tabD i j + (A.consecutive : WithBot ℤ)) with hm | hm
      · rw [← tabD_succ i j hh] at hm
        have hr : rowM A.inner (A.tabD i) j ≠ ⊥ := fun h0 => h (by rw [hm, h0, WithBot.bot_add])
        obtain ⟨p, hp, hdp, hset, he, -⟩ := rowM_attained _ _ j hr
        rcases Nat.lt_or_ge p j with hlt | hge
        · exact extend p hp hdp (by rw [tabD_add_link_left hlt he, hm])
        · obtain rfl : p = j := by omega
          exact extend p hp hdp (tabD_add_link_settled ⟨hdp, hset⟩ hh)
      · rw [← tabD_succ i j hh] at hm
        have hd : A.tabD i j ≠ ⊥ := fun h0 => h (by rw [hm, h0, WithBot.bot_add])
        exact extend j le_rfl hd (tabD_add_link_adjacent hd hh hm)

theorem maximum_eq_of {l : List ℤ} {x : WithBot ℤ} (hle : ∀ z ∈ l, (z : WithBot ℤ) ≤ x)
    (hat : x ≠ ⊥ → ∃ z ∈ l, x = (z : WithBot ℤ)) : l.maximum = x := by
  refine le_antisymm (List.maximum_le_of_forall_le hle) ?_
  by_cases hx : x = ⊥
  · rw [hx]; exact bot_le
  · obtain ⟨z, hz, rfl⟩ := hat hx
    exact List.le_maximum_of_mem' hz

/-- **A cell is the best score over the alignments ending in it.** -/
theorem bestEnd_eq_tabD (i j : ℕ) : A.bestEnd i j = A.tabD i j := by
  refine maximum_eq_of (fun z hz => ?_) (fun h => ?_)
  · obtain ⟨ps, hps, rfl⟩ := List.mem_map.1 hz
    exact body_le_tabD (mem_ends.1 hps)
  · obtain ⟨ps, hps, hv⟩ := tabD_attained i j h
    exact ⟨A.body ps, List.mem_map.2 ⟨ps, mem_ends.2 hps, rfl⟩, hv⟩

theorem padded_of_ends {i p : ℕ} {ps : List ℕ} (h : A.Ends i p ps) (gap : ℤ) (j : ℕ) :
    A.padded gap j ps = A.body ps + gap * ((j : ℤ) - p) := by
  rw [padded, h.getLast?]; rfl

/-- **A running maximum is the best score over the alignments up to its column.** -/
theorem bestWithin_eq_rowM (gap : ℤ) (i j : ℕ) : A.bestWithin gap i j = rowM gap (A.tabD i) j := by
  refine maximum_eq_of (fun z hz => ?_) (fun h => ?_)
  · obtain ⟨ps, hps, rfl⟩ := List.mem_map.1 hz
    obtain ⟨p, hp, he⟩ := mem_within.1 hps
    rw [padded_of_ends he, WithBot.coe_add]
    exact (add_le_add_left (body_le_tabD he) _).trans (rowM_ge gap _ p j hp)
  · obtain ⟨p, hp, hd, -, hv, -⟩ := rowM_attained gap _ j h
    obtain ⟨ps, hps, hb⟩ := tabD_attained i p hd
    refine ⟨A.padded gap j ps, List.mem_map.2 ⟨ps, mem_within.2 ⟨p, hp, hps⟩, rfl⟩, ?_⟩
    rw [padded_of_ends hps, hv, hb, WithBot.coe_add]

/-! ## A problem inside another -/

/-- The columns `k … k + n` of `A'` are the columns `0 … n` of `A`. -/
structure Shift (A A' : Align) (k n : ℕ) : Prop where
  leading : A'.leading = A.leading
  inner : A'.inner = A.inner
  consecutive : A'.consecutive = A.consecutive
  bonus : ∀ j ≤ n, A'.bonus (j + k) = A.bonus j
  hit : ∀ i, ∀ j ≤ n, A'.hit i (j + k) = A.hit i j

section Shift

variable {A' : Align} {k n : ℕ} (h : Shift A A' k n)
include h

theorem Shift.link {p q : ℕ} (hq : q ≤ n) : A'.link (p + k) (q + k) = A.link p q := by
  have hinner : ((q + k : ℕ) : ℤ) - (p + k : ℕ) - 1 = (q : ℤ) - p - 1 := by
    push_cast
    ring
  rw [Align.link, Align.link, h.consecutive, h.inner, h.bonus q hq, hinner]
  exact if_congr (by omega) rfl rfl

/-- **An alignment moved by `k` columns** pays for `k` more columns before its first. -/
theorem Shift.ends {i j : ℕ} {ps : List ℕ} (he : A.Ends i j ps) (hj : j ≤ n) :
    A'.Ends i (j + k) (ps.map (· + k)) ∧ A'.body (ps.map (· + k)) = A.body ps + A.leading * k := by
  induction he with
  | @first j hit =>
    refine ⟨.first (by rwa [h.hit 0 j hj]), ?_⟩
    rw [List.map_singleton, body_singleton, body_singleton, h.leading, h.bonus j hj]
    push_cast
    ring
  | @next i p q ps hp hlt hit ih =>
    obtain ⟨hends, hbody⟩ := ih (by omega)
    rw [List.map_append, List.map_singleton]
    refine ⟨.next hends (by omega) (by rwa [h.hit (i + 1) q hj]), ?_⟩
    rw [body_append_singleton _ (p + k) _ hends.getLast?, body_append_singleton _ p _ hp.getLast?, hbody, h.link hj]
    ring

/-- An alignment inside these columns is one that was moved. -/
theorem Shift.ends_of {i j' : ℕ} {ps' : List ℕ} (he : A'.Ends i j' ps') (hin : ∀ q ∈ ps', k ≤ q ∧ q ≤ n + k) :
    ∃ j ps, j' = j + k ∧ ps' = ps.map (· + k) ∧ A.Ends i j ps := by
  induction he with
  | @first q hit =>
    obtain ⟨hk, hn⟩ := hin q List.mem_cons_self
    obtain ⟨j, rfl⟩ : ∃ j, q = j + k := ⟨q - k, by omega⟩
    refine ⟨j, [j], rfl, rfl, .first ?_⟩
    rwa [← h.hit 0 j (by omega)]
  | @next i p' q ps' hp hlt hit ih =>
    obtain ⟨p, ps, rfl, rfl, hends⟩ := ih (fun r hr => hin r (List.mem_append_left _ hr))
    obtain ⟨hk, hn⟩ := hin q (List.mem_append_right _ List.mem_cons_self)
    obtain ⟨j, rfl⟩ : ∃ j, q = j + k := ⟨q - k, by omega⟩
    refine ⟨j, ps ++ [j], rfl, by rw [List.map_append, List.map_singleton], .next hends (by omega) ?_⟩
    rwa [← h.hit (i + 1) j (by omega)]

/-- **Columns that no alignment uses** only cost their gaps. -/
theorem Shift.bestWithin (gap : ℤ) {i n' : ℕ} (hn : n + k ≤ n')
    (hin : ∀ j ps, A'.Ends i j ps → j ≤ n' → ∀ q ∈ ps, k ≤ q ∧ q ≤ n + k) :
    A'.bestWithin gap i n' = A.bestWithin gap i n + ((A.leading * k + gap * ((n' : ℤ) - n - k) : ℤ) : WithBot ℤ) := by
  -- what moving an alignment does to its padded score
  have hpadded : ∀ j ps, A.Ends i j ps → j ≤ n → A'.padded gap n' (ps.map (· + k))
      = A.padded gap n ps + (A.leading * k + gap * ((n' : ℤ) - n - k)) := fun j ps he hj => by
    obtain ⟨he', hbody⟩ := h.ends he hj
    rw [padded_of_ends he', padded_of_ends he, hbody]
    push_cast
    ring
  refine maximum_eq_of (fun z hz => ?_) (fun hne => ?_)
  · obtain ⟨ps', hps', rfl⟩ := List.mem_map.1 hz
    obtain ⟨j', hj', he'⟩ := mem_within.1 hps'
    have hin := hin j' ps' he' hj'
    have hlast := (hin j' (List.mem_of_getLast? he'.getLast?)).2
    obtain ⟨j, ps, rfl, rfl, he⟩ := h.ends_of he' hin
    rw [hpadded j ps he (by omega), WithBot.coe_add]
    refine add_le_add_left (List.le_maximum_of_mem' (List.mem_map.2 ⟨ps, ?_, rfl⟩)) _
    exact mem_within.2 ⟨j, by omega, he⟩
  · have hbest : A.bestWithin gap i n ≠ ⊥ := fun h0 => hne (by rw [h0, WithBot.bot_add])
    obtain ⟨z, hz⟩ := WithBot.ne_bot_iff_exists.1 hbest
    obtain ⟨ps, hps, rfl⟩ := List.mem_map.1 (List.maximum_mem hz.symm)
    obtain ⟨j, hj, he⟩ := mem_within.1 hps
    refine ⟨_, List.mem_map.2 ⟨ps.map (· + k), mem_within.2 ⟨j + k, by omega, (h.ends he hj).1⟩, rfl⟩, ?_⟩
    rw [← hz, hpadded j ps he hj]
    exact (WithBot.coe_add _ _).symm

end Shift

end Align
end Lib
