import Mathlib
/-!
# Loop — counted loops and their invariants

`forRange n body s` is `for (i = 0; i < n; ++i) s = body(i, s)`; `forRange_inv` is its invariant rule
and `forRange_map` its simulation rule.  `loop body rounds s` is a loop that only its body ends, cut after so many rounds,
and `Returns body s r` says that it needs no more than some number of them.
-/
namespace Lib

variable {σ : Type}

/-- The counted loop. -/
def forRange : ℕ → (ℕ → σ → σ) → σ → σ
  | 0, _, s => s
  | n + 1, body, s => body n (forRange n body s)

theorem forRange_succ (n : ℕ) (body : ℕ → σ → σ) (s : σ) :
    forRange (n + 1) body s = body n (forRange n body s) := rfl

/-- **What every round keeps, the loop keeps.** -/
theorem forRange_inv (P : ℕ → σ → Prop) (body : ℕ → σ → σ) : ∀ (n : ℕ) {s : σ}, P 0 s →
    (∀ i < n, ∀ t, P i t → P (i + 1) (body i t)) → P n (forRange n body s)
  | 0, _, h0, _ => h0
  | n + 1, _, h0, hs =>
    hs n (Nat.lt_succ_self n) _ (forRange_inv P body n h0 (fun i hi => hs i (Nat.lt_succ_of_lt hi)))

/-- **A loop seen through a map of its states.** -/
theorem forRange_map {τ : Type} (φ : σ → τ) (body : ℕ → σ → σ) (body' : ℕ → τ → τ)
    (h : ∀ i s, body' i (φ s) = φ (body i s)) : ∀ (n : ℕ) (s : σ), forRange n body' (φ s) = φ (forRange n body s)
  | 0, _ => rfl
  | n + 1, s => by rw [forRange_succ, forRange_succ, forRange_map φ body body' h n s, h]

/-! ## Loops that their body ends -/

variable {ρ : Type}

/-- A round gives the state to go on with, or the value returned; `none` is a fault.  The loop is also `none` when the
rounds do not suffice. -/
def loop (body : σ → Option (σ ⊕ ρ)) : ℕ → σ → Option ρ
  | 0, _ => none
  | n + 1, s =>
    match body s with
    | none => none
    | some (.inl s) => loop body n s
    | some (.inr r) => some r

/-- The loop ends without a fault and returns `r`. -/
inductive Returns (body : σ → Option (σ ⊕ ρ)) : σ → ρ → Prop
  | done {s : σ} {r : ρ} (h : body s = some (.inr r)) : Returns body s r
  | next {s s' : σ} {r : ρ} (h : body s = some (.inl s')) (hr : Returns body s' r) : Returns body s r

/-- **A loop that returns does so for all numbers of rounds from some one on.** -/
theorem Returns.loop {body : σ → Option (σ ⊕ ρ)} {s : σ} {r : ρ} (h : Returns body s r) :
    ∃ n, ∀ rounds, n ≤ rounds → loop body rounds s = some r := by
  induction h with
  | done h =>
    refine ⟨1, fun rounds hr => ?_⟩
    obtain ⟨k, rfl⟩ : ∃ k, rounds = k + 1 := ⟨rounds - 1, by omega⟩
    rw [Lib.loop, h]
  | next h _ ih =>
    obtain ⟨n, ih⟩ := ih
    refine ⟨n + 1, fun rounds hr => ?_⟩
    obtain ⟨k, rfl⟩ : ∃ k, rounds = k + 1 := ⟨rounds - 1, by omega⟩
    rw [Lib.loop, h]
    exact ih k (by omega)

/-- **Total correctness**: rounds that keep `P`, do not fault and count `μ` down until the body returns a `Q`. -/
theorem Returns.of_variant {body : σ → Option (σ ⊕ ρ)} (P : σ → Prop) (Q : ρ → Prop) (μ : σ → ℕ)
    (h : ∀ s, P s → (∃ r, body s = some (.inr r) ∧ Q r) ∨ ∃ s', body s = some (.inl s') ∧ P s' ∧ μ s' < μ s) (s : σ)
    (hs : P s) : ∃ r, Returns body s r ∧ Q r := by
  rcases h s hs with ⟨r, hr, hQ⟩ | ⟨s', hs', hP, hlt⟩
  · exact ⟨r, .done hr, hQ⟩
  · obtain ⟨r, hr, hQ⟩ := Returns.of_variant P Q μ h s' hP
    exact ⟨r, .next hs' hr, hQ⟩
termination_by μ s

end Lib
