import Fzx.Lib.Run
/-!
# Settle — systems that come to rest

A system whose steps of some kind all make a number smaller comes to rest when only steps of that kind are taken: the
number bounds how many there are (`run_length_le`), also beside steps that make it greater (`run_length_le_of_gain`), and
every schedule of them can be gone on with to a state where none is left (`exists_stuck`).  `sum_lt_of_shift` is for a
number that is a sum over the parties, where a step gives some of what one of them has to another.
-/
namespace Lib

variable {σ α : Type}

/-- No step of the kind is enabled. -/
def Stuck (step : σ → α → Option σ) (Q : α → Prop) (s : σ) : Prop := ∀ a, Q a → step s a = none

/-- A run is no longer than the work it does and the work its steps bring with them. -/
theorem run_length_le_of_gain {step : σ → α → Option σ} {Q : α → Prop} {I : σ → Prop} {work : σ → ℕ} {gain : α → ℕ}
    (hI : ∀ s a t, Q a → I s → step s a = some t → I t)
    (hwork : ∀ s a t, Q a → I s → step s a = some t → work t < work s + gain a) :
    ∀ (as : List α) (s t : σ), (∀ a ∈ as, Q a) → I s → run step s as = some t →
      as.length + work t ≤ work s + (as.map gain).sum
  | [], _, _, _, _, hr => by
    cases hr
    exact (Nat.zero_add _).le
  | a :: as, s, t, hQ, h, hr => by
    obtain ⟨u, hu, hr⟩ := run_cons_eq_some.1 hr
    have ha := hQ a List.mem_cons_self
    have hlt := hwork s a u ha h hu
    have hle := run_length_le_of_gain hI hwork as u t (fun a ha => hQ a (List.mem_cons_of_mem _ ha)) (hI s a u ha h hu) hr
    rw [List.length_cons, List.map_cons, List.sum_cons]
    omega

section

variable {step : σ → α → Option σ} {Q : α → Prop} {I : σ → Prop} {work : σ → ℕ}
  (hI : ∀ s a t, Q a → I s → step s a = some t → I t) (hwork : ∀ s a t, Q a → I s → step s a = some t → work t < work s)
include hI hwork

/-- **A run is no longer than the work it does.** -/
theorem run_length_le (as : List α) (s t : σ) (hQ : ∀ a ∈ as, Q a) (h : I s) (hr : run step s as = some t) :
    as.length + work t ≤ work s := by
  have hle : as.length + work t ≤ work s + (as.map (fun _ => 0)).sum :=
    run_length_le_of_gain hI (fun s a t ha h hs => hwork s a t ha h hs) as s t hQ h hr
  rwa [List.map_const', List.sum_replicate, smul_zero, add_zero] at hle

/-- **Every state can come to rest.** -/
theorem exists_stuck (s : σ) (h : I s) : ∃ as t, (∀ a ∈ as, Q a) ∧ run step s as = some t ∧ Stuck step Q t := by
  induction hn : work s using Nat.strong_induction_on generalizing s with
  | _ n ih =>
    by_cases hs : Stuck step Q s
    · exact ⟨[], s, nofun, rfl, hs⟩
    · simp only [Stuck, not_forall] at hs
      obtain ⟨a, ha, hne⟩ := hs
      obtain ⟨t, ht⟩ := Option.ne_none_iff_exists'.1 hne
      obtain ⟨as, u, hQ, hr, hu⟩ := ih (work t) (hn ▸ hwork s a t ha h ht) t (hI s a t ha h ht) rfl
      refine ⟨a :: as, u, fun c hc => ?_, run_cons_eq_some.2 ⟨t, ht, hr⟩, hu⟩
      rcases List.mem_cons.1 hc with rfl | hc
      · exact ha
      · exact hQ c hc

end

/-! ## Work shared out -/

variable {ι : Type} [DecidableEq ι]

/-- One party gets at most `c`. -/
theorem sum_le_of_gain {S : Finset ι} {f g : ι → ℕ} {p : ι} {c : ℕ}
    (h : ∀ u ∈ S, g u ≤ f u + (if u = p then c else 0)) : ∑ u ∈ S, g u ≤ ∑ u ∈ S, f u + c := by
  have hsum := Finset.sum_le_sum h
  rw [Finset.sum_add_distrib, Finset.sum_ite_eq' S p] at hsum
  refine hsum.trans (Nat.add_le_add_left ?_ _)
  split
  · exact le_rfl
  · exact Nat.zero_le c

/-- One party gives up `d` and another gets at most `c`. -/
theorem sum_lt_of_shift {S : Finset ι} {f g : ι → ℕ} {w p : ι} {c d : ℕ} (hw : w ∈ S) (hc : c < d)
    (h : ∀ u ∈ S, g u + (if u = w then d else 0) ≤ f u + (if u = p then c else 0)) :
    ∑ u ∈ S, g u < ∑ u ∈ S, f u := by
  have hsum := sum_le_of_gain h
  rw [Finset.sum_add_distrib, Finset.sum_ite_eq' S w, if_pos hw] at hsum
  omega

end Lib
