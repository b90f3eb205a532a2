import Mathlib
/-!
# Run — runs of a step function

A system of concurrent parties is a function `step s a` that makes the step `a` of the state `s`, `none` where it is not
enabled; a schedule is the list of the steps taken.  `run_inv` is the invariant rule, and `meets_iff` the rule for a
property that needs a condition on the steps.
-/
namespace Lib

variable {σ α : Type}

/-- The run of a schedule. -/
def run (step : σ → α → Option σ) : σ → List α → Option σ
  | s, [] => some s
  | s, a :: as => (step s a).bind (fun s => run step s as)

theorem run_cons_eq_some {step : σ → α → Option σ} {s s' : σ} {a : α} {as : List α} :
    run step s (a :: as) = some s' ↔ ∃ t, step s a = some t ∧ run step t as = some s' := Option.bind_eq_some_iff

theorem run_append_eq_some {step : σ → α → Option σ} : ∀ {as bs : List α} {s s' : σ},
    run step s (as ++ bs) = some s' ↔ ∃ t, run step s as = some t ∧ run step t bs = some s'
  | [], _, s, _ => ⟨fun h => ⟨s, rfl, h⟩, fun ⟨_, ht, h⟩ => by cases ht; exact h⟩
  | a :: as, bs, s, s' => by
    rw [List.cons_append, run_cons_eq_some]
    constructor
    · rintro ⟨u, hu, hr⟩
      obtain ⟨t, ht, hr⟩ := run_append_eq_some.1 hr
      exact ⟨t, run_cons_eq_some.2 ⟨u, hu, ht⟩, hr⟩
    · rintro ⟨t, ht, hr⟩
      obtain ⟨u, hu, ht⟩ := run_cons_eq_some.1 ht
      exact ⟨u, hu, run_append_eq_some.2 ⟨t, ht, hr⟩⟩

/-- **What every step of a schedule's actions keeps, its run keeps.** -/
theorem run_inv_on {step : σ → α → Option σ} (Q : α → Prop) (P : σ → Prop)
    (hstep : ∀ s a s', Q a → P s → step s a = some s' → P s') :
    ∀ (as : List α) (s s' : σ), (∀ a ∈ as, Q a) → P s → run step s as = some s' → P s'
  | [], _, _, _, h, hr => by cases hr; exact h
  | a :: as, s, s', hQ, h, hr => by
    obtain ⟨t, ht, hr⟩ := run_cons_eq_some.1 hr
    have hP : P t := hstep s a t (hQ a List.mem_cons_self) h ht
    exact run_inv_on Q P hstep as t s' (fun a ha => hQ a (List.mem_cons_of_mem _ ha)) hP hr

/-- **What every step keeps, every run keeps.** -/
theorem run_inv {step : σ → α → Option σ} (P : σ → Prop) (hstep : ∀ s a s', P s → step s a = some s' → P s')
    (as : List α) (s s' : σ) (h : P s) (hr : run step s as = some s') : P s' :=
  run_inv_on (fun _ => True) P (fun s a s' _ => hstep s a s') as s s' (fun _ _ => trivial) h hr

/-- Every step of the run of a schedule meets the condition. -/
def Meets (step : σ → α → Option σ) (Q : σ → α → Prop) : σ → List α → Prop
  | _, [] => True
  | s, a :: as => ∀ t, step s a = some t → Q s a ∧ Meets step Q t as

instance Meets.decidable {step : σ → α → Option σ} {Q : σ → α → Prop} [∀ s a, Decidable (Q s a)] :
    ∀ (s : σ) (as : List α), Decidable (Meets step Q s as)
  | _, [] => .isTrue trivial
  | s, a :: as =>
    match h : step s a with
    | none => .isTrue (fun t ht => by rw [h] at ht; cases ht)
    | some t =>
      have : Decidable (Meets step Q t as) := Meets.decidable t as
      decidable_of_iff (Q s a ∧ Meets step Q t as)
        ⟨fun hm u hu => by rw [h] at hu; cases hu; exact hm, fun hm => hm t h⟩

/-- **What the steps that meet the condition keep, a run of such steps keeps.** -/
theorem run_inv_meets {step : σ → α → Option σ} {Q : σ → α → Prop} (P : σ → Prop)
    (hstep : ∀ s a t, P s → Q s a → step s a = some t → P t) :
    ∀ (as : List α) (s s' : σ), Meets step Q s as → P s → run step s as = some s' → P s'
  | [], _, _, _, h, hr => by cases hr; exact h
  | a :: as, s, s', hm, h, hr => by
    obtain ⟨t, ht, hr⟩ := run_cons_eq_some.1 hr
    obtain ⟨hQ, hm⟩ := hm t ht
    have hP : P t := hstep s a t h hQ ht
    exact run_inv_meets P hstep as t s' hm hP hr

/-- **A property holds in every state of a run exactly when every step of it meets the condition**, if an invariant that
gives the property is kept by the steps that meet the condition and the others break the property. -/
theorem meets_iff {step : σ → α → Option σ} {Q : σ → α → Prop} {I G : σ → Prop} (hgood : ∀ s, I s → G s)
    (hstep : ∀ s a t, I s → Q s a → step s a = some t → I t)
    (hbreak : ∀ s a t, I s → step s a = some t → G t → Q s a) : ∀ (as : List α) (s : σ), I s →
    ((∀ pre t, pre <+: as → run step s pre = some t → G t) ↔ Meets step Q s as)
  | [], s, hI => by
    refine ⟨fun _ => trivial, fun _ pre t hpre hr => ?_⟩
    rw [List.prefix_nil.1 hpre] at hr
    cases hr
    exact hgood s hI
  | a :: as, s, hI => by
    constructor
    · intro h t ht
      have hQ : Q s a := by
        refine hbreak s a t hI ht (h [a] t ?_ ?_)
        · exact List.prefix_append [a] as
        · exact run_cons_eq_some.2 ⟨t, ht, rfl⟩
      refine ⟨hQ, (meets_iff hgood hstep hbreak as t (hstep s a t hI hQ ht)).1 (fun pre u hpre hr => ?_)⟩
      exact h (a :: pre) u (List.cons_prefix_cons.2 ⟨rfl, hpre⟩) (run_cons_eq_some.2 ⟨t, ht, hr⟩)
    · intro h pre t hpre hr
      cases pre with
      | nil =>
        cases hr
        exact hgood s hI
      | cons c pre =>
        obtain ⟨rfl, hp⟩ := List.cons_prefix_cons.1 hpre
        obtain ⟨u, hu, hr⟩ := run_cons_eq_some.1 hr
        obtain ⟨hQ, hm⟩ := h u hu
        exact (meets_iff hgood hstep hbreak as u (hstep s c u hI hQ hu)).2 hm pre t hp hr

/-- A log: what holds of every entry, given those before it, holds after one more entry of which it holds. -/
theorem forall_split_concat {P : List α → α → Prop} {l : List α} {x : α} (h : ∀ pre e post, l = pre ++ e :: post → P pre e)
    (hx : P l x) : ∀ pre e post, l ++ [x] = pre ++ e :: post → P pre e := by
  intro pre e post hl
  rcases List.eq_nil_or_concat' post with rfl | ⟨post, e', rfl⟩
  · obtain ⟨rfl, h2⟩ := List.append_inj' hl rfl
    obtain rfl := (List.cons_eq_cons.1 h2).1
    exact hx
  · have hl' : l ++ [x] = (pre ++ e :: post) ++ [e'] := by rw [hl, List.append_assoc, List.cons_append]
    exact h pre e post (List.append_inj' hl' rfl).1

end Lib
