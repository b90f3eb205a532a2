import Fzx.Events
import Fzx.Pool
/-!
# EventsAtomic — an event word is a set of events

Seen from outside `Events` is what the pool takes it for (`EventSet`): a post sets its bit, the exchange of `get` or
`wait` takes the bits and clears them, and no other step changes anything.  `wait` gets no empty set, as long as nothing
but the three events is posted (`Known`).
-/
namespace Fzx

def Worker.kStop : BitVec 32 := 1#32 <<< 0

def Worker.kJob : BitVec 32 := 1#32 <<< 1

def Worker.kMerge : BitVec 32 := 1#32 <<< 2

namespace Events

open Worker

variable {s s' : Sys}

/-- The tests of a worker on what it got. -/
def ofBits (ev : BitVec 32) : EventSet :=
  { kStop := ev &&& kStop != 0#32, kJob := ev &&& kJob != 0#32, kMerge := ev &&& kMerge != 0#32 }

def kEvents : BitVec 32 := kStop ||| kJob ||| kMerge

/-- Only the three events are posted. -/
def Known (s : Sys) : Prop := s.mState &&& ~~~(kWaitFlag ||| kEvents) = 0#32

/-! ## Bits -/

theorem ofBits_zero : ofBits 0#32 = {} := rfl

theorem ofBits_mask (ev : BitVec 32) : ofBits (ev &&& kEventMask) = ofBits ev := by
  unfold ofBits
  rw [BitVec.and_assoc, BitVec.and_assoc, BitVec.and_assoc]
  rfl

/-- Another bit is not seen. -/
theorem or_and_of_disjoint (ev : BitVec 32) {f g : BitVec 32} (h : f &&& g = 0#32) : (ev ||| f) &&& g = ev &&& g := by
  rw [BitVec.and_or_distrib_right, h, BitVec.or_zero]

/-- A bit that was set is seen. -/
theorem or_and_self_ne (ev : BitVec 32) {f : BitVec 32} (h : f ≠ 0#32) : ((ev ||| f) &&& f != 0#32) = true := by
  rw [bne_iff_ne, BitVec.and_or_distrib_right, BitVec.and_self]
  intro h0
  exact h (BitVec.or_eq_zero_iff.1 h0).2

theorem ofBits_or_wait (ev : BitVec 32) : ofBits (ev ||| kWaitFlag) = ofBits ev := by
  unfold ofBits
  rw [or_and_of_disjoint ev rfl, or_and_of_disjoint ev rfl, or_and_of_disjoint ev rfl]

theorem ofBits_or_kStop (ev : BitVec 32) : ofBits (ev ||| kStop) = { ofBits ev with kStop := true } := by
  unfold ofBits
  rw [or_and_self_ne ev (by decide), or_and_of_disjoint ev rfl, or_and_of_disjoint ev rfl]

theorem ofBits_or_kJob (ev : BitVec 32) : ofBits (ev ||| kJob) = { ofBits ev with kJob := true } := by
  unfold ofBits
  rw [or_and_self_ne ev (by decide), or_and_of_disjoint ev rfl, or_and_of_disjoint ev rfl]

theorem ofBits_or_kMerge (ev : BitVec 32) : ofBits (ev ||| kMerge) = { ofBits ev with kMerge := true } := by
  unfold ofBits
  rw [or_and_self_ne ev (by decide), or_and_of_disjoint ev rfl, or_and_of_disjoint ev rfl]

/-- **Where none of the three events is set, no event is.** -/
theorem any_ofBits (hk : Known s) (h : s.mState &&& kEventMask ≠ 0#32) : (ofBits s.mState).any = true := by
  by_contra hno
  simp only [ofBits, EventSet.any, Bool.or_eq_true, bne_iff_ne, not_or, not_not] at hno
  have hmask : kEventMask = kStop ||| kJob ||| kMerge ||| ~~~(kWaitFlag ||| kEvents) := by decide
  apply h
  unfold Known at hk
  rw [hmask, BitVec.and_or_distrib_left, BitVec.and_or_distrib_left, BitVec.and_or_distrib_left, hk, hno.1.1, hno.1.2, hno.2]
  rfl

/-! ## The steps -/

/-- What `wait` took and did not return yet. -/
def ConsumerPc.taken : ConsumerPc → Option EventSet
  | .unlock ret => some (ofBits ret)
  | _ => none

/-- How far the consumer is from its next exchange, from returning what it took, or from sleep. -/
def ConsumerPc.rank : ConsumerPc → ℕ
  | .unlock _ => 7
  | .idle => 6
  | .lock => 5
  | .fetchOr => 4
  | .relock => 3
  | .load => 2
  | .sleep | .exchange => 1
  | .asleep => 0

/-- How far a poster is from the end of its post; at its end it may wake the consumer up. -/
def PosterPc.rank : PosterPc → ℕ
  | .lock => 6
  | .unlock => 5
  | .notify => 4
  | .idle => 0

/-- The events and the posters stay as they are. -/
structure Same (s s' : Sys) : Prop where
  events : ofBits s'.mState = ofBits s.mState
  known : Known s → Known s'
  posters : s'.posters = s.posters

theorem same_of_eq (hm : s'.mState = s.mState) (hp : s'.posters = s.posters) : Same s s' :=
  ⟨by rw [hm], by unfold Known; rw [hm]; exact id, hp⟩

theorem known_init : Known init := rfl

theorem known_of_zero (h : s.mState = 0#32) : Known s := by
  unfold Known
  rw [h]
  rfl

/-- A step of `wait`. -/
inductive WaitStep (s s' : Sys) : Prop where
  | go (h : Same s s') (ht : s.consumer.taken = none) (ht' : s'.consumer.taken = none) (hne : s'.consumer ≠ .idle)
      (hr : s'.consumer.rank < s.consumer.rank)
  | take (hany : (ofBits s.mState).any = true) (hm : s'.mState = 0#32) (hp : s'.posters = s.posters)
      (ht : s.consumer.taken = none) (ht' : s'.consumer.taken = some (ofBits s.mState)) (hne : s'.consumer ≠ .idle)
  | ret (h : Same s s') (ev : EventSet) (ht : s.consumer.taken = some ev) (hidle : s'.consumer = .idle)
      (hr : s'.consumer.rank < s.consumer.rank)

theorem WaitStep.known (h : WaitStep s s') (hk : Known s) : Known s' := by
  cases h with
  | go h _ _ _ _ => exact h.known hk
  | take _ hm _ _ _ _ => exact known_of_zero hm
  | ret h _ _ _ _ => exact h.known hk

theorem WaitStep.posters (h : WaitStep s s') : s'.posters = s.posters := by
  cases h with
  | go h _ _ _ _ => exact h.posters
  | take _ _ hp _ _ _ => exact hp
  | ret h _ _ _ _ => exact h.posters

/-- **A step of `wait`** takes the events at its exchange, where there are some. -/
theorem consumerStep_cases (h : Inv s) (hk : Known s) (hs : consumerStep s = some s') : WaitStep s s' := by
  have htaken : ∀ {c : Prop} [Decidable c], ConsumerPc.taken (if c then .sleep else .exchange) = none := by
    intro c _
    split <;> rfl
  have hidle : ∀ {c : Prop} [Decidable c], (if c then ConsumerPc.sleep else .exchange) ≠ .idle := by
    intro c _
    split <;> nofun
  have hrank : ∀ {c : Prop} [Decidable c], ConsumerPc.rank (if c then .sleep else .exchange) = 1 := by
    intro c _
    split <;> rfl
  unfold consumerStep at hs
  cases hpc : s.consumer with
  | idle =>
    simp only [hpc] at hs
    cases hs
  | asleep =>
    simp only [hpc] at hs
    cases hs
  | exchange =>
    simp only [hpc] at hs
    rw [← Option.some.inj hs]
    have hne : s.mState &&& kEventMask ≠ 0#32 := by
      rw [h.events]
      exact h.exchange hpc
    exact .take (any_ofBits hk hne) rfl rfl (by rw [hpc]; rfl) (congrArg some (ofBits_mask _)) nofun
  | unlock ret =>
    simp only [hpc] at hs
    rw [← Option.some.inj hs]
    exact .ret (same_of_eq rfl rfl) (ofBits ret) (by rw [hpc]; rfl) rfl (by rw [hpc]; exact Nat.lt_add_one _)
  | fetchOr =>
    simp only [hpc] at hs
    rw [← Option.some.inj hs]
    refine .go ⟨ofBits_or_wait _, fun hk => ?_, rfl⟩ (by rw [hpc]; rfl) htaken hidle (by rw [hpc, hrank]; decide)
    unfold Known at hk ⊢
    rw [BitVec.and_or_distrib_right, hk]
    rfl
  | load =>
    simp only [hpc] at hs
    rw [← Option.some.inj hs]
    exact .go (same_of_eq rfl rfl) (by rw [hpc]; rfl) htaken hidle (by rw [hpc, hrank]; decide)
  | sleep =>
    simp only [hpc] at hs
    rw [← Option.some.inj hs]
    exact .go (same_of_eq rfl rfl) (by rw [hpc]; rfl) rfl nofun (by rw [hpc]; exact Nat.lt_add_one _)
  | _ =>
    simp only [hpc] at hs
    split at hs
    · rw [← Option.some.inj hs]
      exact .go (same_of_eq rfl rfl) (by rw [hpc]; rfl) rfl nofun (by rw [hpc]; exact Nat.lt_add_one _)
    · cases hs

theorem get_spec (hs : get s = some s') : s.consumer = .idle ∧ s'.consumer = .idle ∧ s'.mState = 0#32 ∧
    s'.posters = s.posters := by
  unfold get at hs
  split at hs
  · rename_i hpc
    rw [← Option.some.inj hs]
    exact ⟨hpc, hpc, rfl, rfl⟩
  · cases hs

/-- The consumer stays where it is, or is woken up. -/
structure SameConsumer (s s' : Sys) : Prop where
  taken : s'.consumer.taken = s.consumer.taken
  idle : s'.consumer = .idle ↔ s.consumer = .idle

theorem sameConsumer_of_eq (h : s'.consumer = s.consumer) : SameConsumer s s' := ⟨by rw [h], by rw [h]⟩

theorem sameConsumer_of_asleep (h : s.consumer = .asleep) (h' : s'.consumer = .relock) : SameConsumer s s' :=
  ⟨by rw [h, h']; rfl, by rw [h, h']; exact ⟨nofun, nofun⟩⟩

/-- **A post** sets its bit. -/
theorem post_spec {p : ℕ} {flags : BitVec 32} (hs : post s p flags = some s') : s'.mState = s.mState ||| flags ∧
    SameConsumer s s' ∧ s.posters p = .idle ∧ ∀ q ≠ p, s'.posters q = s.posters q := by
  unfold post at hs
  split at hs
  · rename_i hg
    rw [← Option.some.inj hs]
    exact ⟨rfl, sameConsumer_of_eq rfl, hg.1, fun q hq => Function.update_of_ne hq _ _⟩
  · cases hs

/-- The rest of it changes no event. -/
theorem posterStep_spec {p : ℕ} (hs : posterStep s p = some s') : s'.mState = s.mState ∧ SameConsumer s s' ∧
    (∀ q ≠ p, s'.posters q = s.posters q) ∧
    s'.consumer.rank + (s'.posters p).rank < s.consumer.rank + (s.posters p).rank := by
  unfold posterStep at hs
  cases hpc : s.posters p with
  | idle =>
    simp only [hpc] at hs
    cases hs
  | lock =>
    simp only [hpc] at hs
    split at hs
    · rw [← Option.some.inj hs]
      refine ⟨rfl, sameConsumer_of_eq rfl, fun q hq => Function.update_of_ne hq _ _, ?_⟩
      dsimp only
      rw [Function.update_self]
      exact Nat.add_lt_add_left (by decide) _
    · cases hs
  | unlock =>
    simp only [hpc] at hs
    rw [← Option.some.inj hs]
    refine ⟨rfl, sameConsumer_of_eq rfl, fun q hq => Function.update_of_ne hq _ _, ?_⟩
    dsimp only
    rw [Function.update_self]
    exact Nat.add_lt_add_left (by decide) _
  | notify =>
    simp only [hpc] at hs
    rw [← Option.some.inj hs]
    refine ⟨rfl, ?_, fun q hq => Function.update_of_ne hq _ _, ?_⟩
    · by_cases hc : s.consumer = .asleep
      · exact sameConsumer_of_asleep hc (if_pos hc)
      · exact sameConsumer_of_eq (if_neg hc)
    · dsimp only
      rw [Function.update_self]
      split
      · rename_i hc
        rw [hc]
        decide
      · exact Nat.add_lt_add_left (by decide) _

theorem known_of_eq (hk : Known s) (h : s'.mState = s.mState) : Known s' := by
  unfold Known at hk ⊢
  rwa [h]

theorem known_of_or {flags : BitVec 32} (hk : Known s) (hf : flags &&& ~~~(kWaitFlag ||| kEvents) = 0#32)
    (h : s'.mState = s.mState ||| flags) : Known s' := by
  unfold Known at hk ⊢
  rw [h, BitVec.and_or_distrib_right, hk, hf]
  rfl

/-! ## The mutex -/

/-- Who has the mutex knows it. -/
structure Owned (s : Sys) : Prop where
  consumer : s.mMutex = some .consumer → s.consumer.holds = true
  poster : ∀ p, s.mMutex = some (.poster p) → s.posters p = .unlock

theorem owned_init : Owned init := ⟨nofun, nofun⟩

/-- Who has not the mutex goes on. -/
theorem Owned.move (h : Owned s) {pc : ConsumerPc} (hc : s.consumer.holds = false) {mState : BitVec 32} {log : List Entry}
    {returned : List (BitVec 32)} :
    Owned { s with consumer := pc, mState := mState, log := log, returned := returned } where
  consumer := fun hm => by
    have := h.consumer hm
    rw [hc] at this
    cases this
  poster := h.poster

theorem owned_consumerStep (h : Owned s) (hs : consumerStep s = some s') : Owned s' := by
  have hholds : ∀ {c : Prop} [Decidable c], ConsumerPc.holds (if c then .sleep else .exchange) = true := by
    intro c _
    split <;> rfl
  unfold consumerStep at hs
  cases hpc : s.consumer with
  | idle =>
    simp only [hpc] at hs
    cases hs
  | asleep =>
    simp only [hpc] at hs
    cases hs
  | fetchOr =>
    simp only [hpc] at hs
    rw [← Option.some.inj hs]
    exact ⟨fun _ => hholds, h.poster⟩
  | load =>
    simp only [hpc] at hs
    rw [← Option.some.inj hs]
    exact ⟨fun _ => hholds, h.poster⟩
  | exchange =>
    simp only [hpc] at hs
    rw [← Option.some.inj hs]
    exact ⟨fun _ => rfl, h.poster⟩
  | sleep =>
    simp only [hpc] at hs
    rw [← Option.some.inj hs]
    exact ⟨nofun, nofun⟩
  | unlock ret =>
    simp only [hpc] at hs
    rw [← Option.some.inj hs]
    exact ⟨nofun, nofun⟩
  | _ =>
    simp only [hpc] at hs
    split at hs
    · rw [← Option.some.inj hs]
      exact ⟨fun _ => rfl, nofun⟩
    · cases hs

theorem owned_get (h : Owned s) (hs : get s = some s') : Owned s' := by
  unfold get at hs
  split at hs
  · rename_i hpc
    rw [← Option.some.inj hs]
    exact h.move (by rw [hpc]; rfl)
  · cases hs

theorem owned_post {p : ℕ} {flags : BitVec 32} (h : Owned s) (hs : post s p flags = some s') : Owned s' := by
  unfold post at hs
  split at hs
  · rename_i hg
    rw [← Option.some.inj hs]
    refine ⟨h.consumer, fun q hq => ?_⟩
    have hu := h.poster q hq
    have hqp : q ≠ p := fun he => by
      rw [he, hg.1] at hu
      cases hu
    exact (Function.update_of_ne hqp _ _).trans hu
  · cases hs

theorem owned_posterStep {p : ℕ} (h : Owned s) (hs : posterStep s p = some s') : Owned s' := by
  unfold posterStep at hs
  cases hpc : s.posters p with
  | idle =>
    simp only [hpc] at hs
    cases hs
  | lock =>
    simp only [hpc] at hs
    split at hs
    · rw [← Option.some.inj hs]
      refine ⟨nofun, fun q hq => ?_⟩
      cases hq
      exact Function.update_self ..
    · cases hs
  | unlock =>
    simp only [hpc] at hs
    rw [← Option.some.inj hs]
    exact ⟨nofun, nofun⟩
  | notify =>
    simp only [hpc] at hs
    rw [← Option.some.inj hs]
    refine ⟨fun hm => ?_, fun q hq => ?_⟩
    · have hholds := h.consumer hm
      dsimp only
      split
      · rename_i hc
        rw [hc] at hholds
        cases hholds
      · exact hholds
    · have hu := h.poster q hq
      have hqp : q ≠ p := fun he => by
        rw [he, hpc] at hu
        cases hu
      exact (Function.update_of_ne hqp _ _).trans hu

theorem consumerStep_of_holds (h : s.consumer.holds = true) : consumerStep s ≠ none := by
  unfold consumerStep
  cases hpc : s.consumer with
  | fetchOr | sleep | load | exchange | unlock => nofun
  | _ =>
    rw [hpc] at h
    cases h

theorem posterStep_of_unlock {p : ℕ} (h : s.posters p = .unlock) : posterStep s p ≠ none := by
  unfold posterStep
  rw [h]
  nofun

/-- **Nobody waits for the mutex for ever**: where no thread of a `wait` or a `post` can go on, the mutex is free, nobody is
in a post, and the consumer is in no call or asleep. -/
theorem Owned.free (h : Owned s) (hc : consumerStep s = none) (hp : ∀ p, posterStep s p = none) :
    (∀ p, s.posters p = .idle) ∧ (s.consumer = .idle ∨ s.consumer = .asleep) := by
  have hm : s.mMutex = none := by
    cases hm : s.mMutex with
    | none => rfl
    | some t =>
      cases t with
      | consumer => exact absurd hc (consumerStep_of_holds (h.consumer hm))
      | poster p => exact absurd (hp p) (posterStep_of_unlock (h.poster p hm))
  refine ⟨fun p => ?_, ?_⟩
  · have hp := hp p
    unfold posterStep at hp
    cases hpc : s.posters p with
    | idle => rfl
    | lock =>
      simp only [hpc, hm, if_true] at hp
      cases hp
    | _ =>
      simp only [hpc] at hp
      cases hp
  · unfold consumerStep at hc
    cases hpc : s.consumer with
    | idle => exact .inl rfl
    | asleep => exact .inr rfl
    | lock | relock =>
      simp only [hpc, hm, if_true] at hc
      cases hc
    | _ =>
      simp only [hpc] at hc
      cases hc

/-- Where nobody is in a post, the consumer sleeps on no event. -/
theorem Inv.state_of_asleep (h : Inv s) (hc : s.consumer = .asleep) (hp : ∀ p, s.posters p = .idle) :
    s.mState = kWaitFlag := by
  have hpending : pending s.log = 0#32 := by
    by_contra hne
    obtain ⟨p, hne⟩ := h.asleep hc hne
    exact hne (hp p)
  exact h.eq_waitFlag_iff.2 ⟨by rw [hc]; rfl, hpending⟩

end Events
end Fzx
