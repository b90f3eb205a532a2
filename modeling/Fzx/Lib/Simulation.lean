import Fzx.Lib.Run
/-!
# Simulation — a system that does what another one does

`abs` maps the states of one system to those of another.  If each step of the first is a step of the second, or a silent
one that changes nothing there, then so is each run (`run_simulates`), through the same states (`run_simulates_take`).
`Follows` says which runs go together, and so what the second system's are seen to do (`Follows.filterMap`).
-/
namespace Lib

variable {σ τ α β γ : Type}

/-- The actions of the second system for those of the first: one of a kind that `M` allows, or none for a silent one. -/
inductive Follows (S : α → Prop) (M : α → β → Prop) : List α → List β → Prop where
  | nil : Follows S M [] []
  | silent {a : α} {as : List α} {bs : List β} (ha : S a) (h : Follows S M as bs) : Follows S M (a :: as) bs
  | step {a : α} {b : β} {as : List α} {bs : List β} (hab : M a b) (h : Follows S M as bs) : Follows S M (a :: as) (b :: bs)

variable {S : α → Prop} {M : α → β → Prop}

theorem Follows.mem {as : List α} {bs : List β} (h : Follows S M as bs) {b : β} (hb : b ∈ bs) : ∃ a ∈ as, M a b := by
  induction h with
  | nil => cases hb
  | silent _ _ ih =>
    obtain ⟨a, ha, hab⟩ := ih hb
    exact ⟨a, List.mem_cons_of_mem _ ha, hab⟩
  | step hab _ ih =>
    rcases List.mem_cons.1 hb with rfl | hb
    · exact ⟨_, List.mem_cons_self, hab⟩
    · obtain ⟨a, ha, hab⟩ := ih hb
      exact ⟨a, List.mem_cons_of_mem _ ha, hab⟩

/-- What is seen of the actions is the same, if silent ones are not seen. -/
theorem Follows.filterMap {as : List α} {bs : List β} (h : Follows S M as bs) {f : α → Option γ} {g : β → Option γ}
    (hS : ∀ a, S a → f a = none) (hM : ∀ a b, M a b → g b = f a) : bs.filterMap g = as.filterMap f := by
  induction h with
  | nil => rfl
  | silent ha _ ih => rw [List.filterMap_cons_none (hS _ ha), ih]
  | @step a b _ _ hab _ ih =>
    cases hf : f a with
    | none => rw [List.filterMap_cons_none hf, List.filterMap_cons_none ((hM a b hab).trans hf), ih]
    | some c => rw [List.filterMap_cons_some hf, List.filterMap_cons_some ((hM a b hab).trans hf), ih]

/-- A step of the first system is one of the second, of a kind that `M` allows for it, or silent. -/
def Simulates (step : σ → α → Option σ) (step' : τ → β → Option τ) (I : σ → Prop) (abs : σ → τ) (S : α → Prop)
    (M : α → β → Prop) : Prop :=
  ∀ s a s', I s → step s a = some s' → (S a ∧ abs s' = abs s) ∨ ∃ b, M a b ∧ step' (abs s) b = some (abs s')

/-- What the second system does for an action: one of its own, or nothing. -/
def Answers (S : α → Prop) (M : α → β → Prop) (a : α) : Option β → Prop
  | none => S a
  | some b => M a b

theorem follows_of_answers {as : List α} {bs : List (Option β)} (h : List.Forall₂ (Answers S M) as bs) :
    Follows S M as bs.reduceOption := by
  induction h with
  | nil => exact .nil
  | @cons a b as bs hab _ ih =>
    cases b with
    | none => exact .silent hab ih
    | some b => exact .step hab ih

/-- **State by state**: after as many steps of either system as it takes, the second one is where the first one is. -/
theorem run_simulates_take {step : σ → α → Option σ} {step' : τ → β → Option τ} {I : σ → Prop} {abs : σ → τ}
    (hI : ∀ s a s', I s → step s a = some s' → I s') (h : Simulates step step' I abs S M) :
    ∀ (as : List α) (s s' : σ), I s → run step s as = some s' →
      ∃ bs : List (Option β), List.Forall₂ (Answers S M) as bs ∧
        ∀ k t, run step s (as.take k) = some t → run step' (abs s) (bs.take k).reduceOption = some (abs t)
  | [], s, s', _, _ => by
    refine ⟨[], .nil, fun k t ht => ?_⟩
    rw [List.take_nil] at ht ⊢
    cases ht
    rfl
  | a :: as, s, s', hs, hr => by
    obtain ⟨u, hu, hr⟩ := run_cons_eq_some.1 hr
    obtain ⟨bs, hM, hbs⟩ := run_simulates_take hI h as u s' (hI s a u hs hu) hr
    -- the prefix is empty, or it begins with the step to `u`
    have hprefix : ∀ {o : Option β}, run step' (abs s) [o].reduceOption = some (abs u) → ∀ k t,
        run step s ((a :: as).take k) = some t → run step' (abs s) ((o :: bs).take k).reduceOption = some (abs t) := by
      intro o ho k t ht
      cases k with
      | zero =>
        cases ht
        rfl
      | succ k =>
        rw [List.take_succ_cons, run_cons_eq_some] at ht
        obtain ⟨v, hv, ht⟩ := ht
        obtain rfl : u = v := Option.some.inj (hu.symm.trans hv)
        rw [List.take_succ_cons, ← List.singleton_append, List.reduceOption_append]
        exact run_append_eq_some.2 ⟨abs u, ho, hbs k t ht⟩
    rcases h s a u hs hu with ⟨ha, he⟩ | ⟨b, hb, hstep⟩
    · exact ⟨none :: bs, .cons ha hM, hprefix (congrArg some he.symm)⟩
    · exact ⟨some b :: bs, .cons hb hM, hprefix (run_cons_eq_some.2 ⟨abs u, hstep, rfl⟩)⟩

/-- **A run of the first system is a run of the second.** -/
theorem run_simulates {step : σ → α → Option σ} {step' : τ → β → Option τ} {I : σ → Prop} {abs : σ → τ}
    (hI : ∀ s a s', I s → step s a = some s' → I s') (h : Simulates step step' I abs S M) (as : List α) (s s' : σ)
    (hs : I s) (hr : run step s as = some s') :
    ∃ bs, run step' (abs s) bs = some (abs s') ∧ Follows S M as bs := by
  obtain ⟨bs, hM, hbs⟩ := run_simulates_take hI h as s s' hs hr
  have hall := hbs as.length s' (by rwa [List.take_length])
  rw [hM.length_eq, List.take_length] at hall
  exact ⟨bs.reduceOption, hall, follows_of_answers hM⟩

end Lib
