import Fzx.Lib.Run
/-!
# Events — events.cpp

One consumer gets event bits or waits for them, and any number of posters set them.  A step is one atomic operation: an
access to the state word, taking the mutex or giving it back, going to sleep on the condition variable (which gives the
mutex back in the same step), waking up, also for no reason, and `notify_one`.

No step reads the log, which is the posts and the exchanges in the order of their accesses to the state word, nor the
values that the completed calls returned.
-/
namespace Fzx

open Lib

namespace Events

def kWaitFlag : BitVec 32 := 0x80000000

def kEventMask : BitVec 32 := ~~~kWaitFlag

inductive Thread where
  | consumer
  | poster (p : ℕ)
deriving DecidableEq

/-- Where the consumer is in `wait`: before the named operation, or asleep. -/
inductive ConsumerPc where
  | idle
  | lock
  | fetchOr
  | sleep
  | asleep
  | relock
  | load
  | exchange
  | unlock (ret : BitVec 32)
deriving DecidableEq

/-- Where a poster is in `post`, after its `fetch_or`. -/
inductive PosterPc where
  | idle
  | lock
  | unlock
  | notify
deriving DecidableEq

/-- An access to the state word: what was posted, or what an exchange of `get` or `wait` made of it. -/
inductive Entry where
  | posted (flags : BitVec 32)
  | got (ret : BitVec 32)
  | waited (ret : BitVec 32)
deriving DecidableEq

structure Sys where
  mState : BitVec 32
  mMutex : Option Thread
  consumer : ConsumerPc
  posters : ℕ → PosterPc
  log : List Entry
  returned : List (BitVec 32)

def init : Sys :=
  { mState := 0#32, mMutex := none, consumer := .idle, posters := fun _ => .idle, log := [], returned := [] }

inductive Action where
  | get
  | wait
  | consumer
  | wake
  | post (p : ℕ) (flags : BitVec 32)
  | poster (p : ℕ)

def get (s : Sys) : Option Sys :=
  if s.consumer = .idle then
    some { s with mState := 0#32, log := s.log ++ [.got s.mState], returned := s.returned ++ [s.mState] }
  else none

/-- The next step of `wait`; `none` when it is not called, blocked or asleep. -/
def consumerStep (s : Sys) : Option Sys :=
  match s.consumer with
  | .idle => none
  | .lock => if s.mMutex = none then some { s with mMutex := some .consumer, consumer := .fetchOr } else none
  | .fetchOr =>
    some { s with mState := s.mState ||| kWaitFlag
                  consumer := if s.mState &&& kEventMask = 0#32 then .sleep else .exchange }
  | .sleep => some { s with mMutex := none, consumer := .asleep }
  | .asleep => none
  | .relock => if s.mMutex = none then some { s with mMutex := some .consumer, consumer := .load } else none
  | .load => some { s with consumer := if s.mState &&& kEventMask = 0#32 then .sleep else .exchange }
  | .exchange =>
    let ret := s.mState &&& kEventMask
    some { s with mState := 0#32, consumer := .unlock ret, log := s.log ++ [.waited ret] }
  | .unlock ret => some { s with mMutex := none, consumer := .idle, returned := s.returned ++ [ret] }

/-- The `fetch_or` of `post`; `none` where an assertion fails. -/
def post (s : Sys) (p : ℕ) (flags : BitVec 32) : Option Sys :=
  if s.posters p = .idle ∧ flags &&& kWaitFlag = 0#32 ∧ flags ≠ 0#32 then
    some { s with mState := s.mState ||| flags
                  posters := Function.update s.posters p (if s.mState ≠ kWaitFlag then .idle else .lock)
                  log := s.log ++ [.posted flags] }
  else none

def posterStep (s : Sys) (p : ℕ) : Option Sys :=
  match s.posters p with
  | .idle => none
  | .lock =>
    if s.mMutex = none then
      some { s with mMutex := some (.poster p), posters := Function.update s.posters p .unlock }
    else none
  | .unlock => some { s with mMutex := none, posters := Function.update s.posters p .notify }
  | .notify =>
    some { s with consumer := if s.consumer = .asleep then .relock else s.consumer
                  posters := Function.update s.posters p .idle }

def step (s : Sys) : Action → Option Sys
  | .get => get s
  | .wait => if s.consumer = .idle then some { s with consumer := .lock } else none
  | .consumer => consumerStep s
  | .wake => if s.consumer = .asleep then some { s with consumer := .relock } else none
  | .post p flags => post s p flags
  | .poster p => posterStep s p

/-! ## What is promised -/

def Entry.after (acc : BitVec 32) : Entry → BitVec 32
  | .posted flags => acc ||| flags
  | .got _ | .waited _ => 0#32

/-- The bits posted since the last exchange. -/
def pending (log : List Entry) : BitVec 32 := log.foldl Entry.after 0#32

def Entry.ret : Entry → Option (BitVec 32)
  | .posted _ => none
  | .got ret | .waited ret => some ret

def Entry.flags : Entry → Option (BitVec 32)
  | .posted flags => some flags
  | .got _ | .waited _ => none

/-- The bits of all the words. -/
def bits (words : List (BitVec 32)) : BitVec 32 := words.foldl (· ||| ·) 0#32

/-- A value that `wait` has exchanged and not returned yet. -/
def ConsumerPc.inFlight : ConsumerPc → List (BitVec 32)
  | .unlock ret => [ret]
  | _ => []

/-! ## The invariant -/

/-- The consumer has set the wait flag. -/
def ConsumerPc.flagged : ConsumerPc → Bool
  | .sleep | .asleep | .relock | .load | .exchange => true
  | .idle | .lock | .fetchOr | .unlock _ => false

/-- The consumer holds the mutex. -/
def ConsumerPc.holds : ConsumerPc → Bool
  | .fetchOr | .sleep | .load | .exchange | .unlock _ => true
  | .idle | .lock | .asleep | .relock => false

/-- The log and the values returned, with the one in flight. -/
structure LogOk (log : List Entry) (returned : List (BitVec 32)) : Prop where
  top : pending log &&& kWaitFlag = 0#32
  rets : ∀ pre e post, log = pre ++ e :: post → ∀ ret, e.ret = some ret → ret = pending pre
  waited : ∀ ret, .waited ret ∈ log → ret ≠ 0#32
  noFlag : ∀ ret ∈ returned, ret &&& kWaitFlag = 0#32
  posted : bits returned ||| pending log = bits (log.filterMap Entry.flags)
  returned : returned = log.filterMap Entry.ret

structure Inv (s : Sys) : Prop where
  log : LogOk s.log (s.returned ++ s.consumer.inFlight)
  state : s.mState = (if s.consumer.flagged then kWaitFlag else 0#32) ||| pending s.log
  mutex : s.consumer.holds = true → s.mMutex = some .consumer
  poster : ∀ p, s.posters p = .unlock → s.mMutex = some (.poster p)
  exchange : s.consumer = .exchange → pending s.log ≠ 0#32
  sleep : s.consumer = .sleep → pending s.log ≠ 0#32 → ∃ p, s.posters p = .lock
  asleep : s.consumer = .asleep → pending s.log ≠ 0#32 → ∃ p, s.posters p ≠ .idle

/-! ## The log -/

theorem pending_concat (log : List Entry) (e : Entry) : pending (log ++ [e]) = e.after (pending log) := by
  rw [pending, List.foldl_concat]
  rfl

theorem bits_concat (words : List (BitVec 32)) (w : BitVec 32) : bits (words ++ [w]) = bits words ||| w := by
  rw [bits, List.foldl_concat]
  rfl

theorem logOk_nil : LogOk [] [] :=
  ⟨rfl, fun pre e post h => by (cases pre <;> cases h), nofun, nofun, rfl, rfl⟩

theorem LogOk.post {log : List Entry} {returned : List (BitVec 32)} (h : LogOk log returned) {flags : BitVec 32}
    (hf : flags &&& kWaitFlag = 0#32) : LogOk (log ++ [.posted flags]) returned where
  top := by
    rw [pending_concat, Entry.after, BitVec.and_or_distrib_right, h.top, hf, BitVec.zero_or]
  rets := forall_split_concat h.rets nofun
  waited := fun ret hr => by
    rcases List.mem_append.1 hr with hr | hr
    · exact h.waited ret hr
    · cases List.mem_singleton.1 hr
  returned := by
    rw [List.filterMap_append, ← h.returned]
    exact (List.append_nil _).symm
  noFlag := h.noFlag
  posted := by
    have hflags : (Entry.posted flags).flags = some flags := rfl
    rw [List.filterMap_append, List.filterMap_cons_some hflags, List.filterMap_nil, bits_concat, ← h.posted,
      pending_concat, Entry.after, BitVec.or_assoc]

/-- An exchange that gets the pending bits. -/
theorem LogOk.take {log : List Entry} {returned : List (BitVec 32)} (h : LogOk log returned) {e : Entry} {ret : BitVec 32}
    (he : e.ret = some ret) (hret : ret = pending log) (hw : e = .waited ret → ret ≠ 0#32) :
    LogOk (log ++ [e]) (returned ++ [ret]) where
  top := by
    rw [pending_concat]
    cases e with
    | posted flags => cases he
    | got _ => exact BitVec.zero_and
    | waited _ => exact BitVec.zero_and
  rets := forall_split_concat h.rets (fun r hr => (Option.some.inj (he.symm.trans hr)).symm.trans hret)
  waited := fun r hr => by
    rcases List.mem_append.1 hr with hr | hr
    · exact h.waited r hr
    · have hr := List.mem_singleton.1 hr
      rw [← hr] at he
      obtain rfl := Option.some.inj he
      exact hw hr.symm
  returned := by
    rw [List.filterMap_append, ← h.returned, List.filterMap_cons_some he, List.filterMap_nil]
  noFlag := fun r hr => by
    rcases List.mem_append.1 hr with hr | hr
    · exact h.noFlag r hr
    · rw [List.mem_singleton.1 hr, hret]
      exact h.top
  posted := by
    have hflags : e.flags = none := by cases e <;> first | rfl | cases he
    have hafter : e.after (pending log) = 0#32 := by cases e <;> first | rfl | cases he
    rw [List.filterMap_append, List.filterMap_cons_none hflags, List.filterMap_nil, List.append_nil, ← h.posted,
      bits_concat, pending_concat, hafter, BitVec.or_zero, hret]

/-! ## The state word -/

theorem or_and_not_of_and_eq_zero {n : ℕ} {x w : BitVec n} (h : x &&& w = 0#n) : (w ||| x) &&& ~~~w = x := by
  ext i hi
  have hb : (x &&& w)[i] = (0#n)[i] := by rw [h]
  simp only [BitVec.getElem_and, BitVec.getElem_or, BitVec.getElem_not] at hb ⊢
  grind

/-- **The event bits of the state word are the pending ones.** -/
theorem Inv.events {s : Sys} (h : Inv s) : s.mState &&& kEventMask = pending s.log := by
  have hmask : (kWaitFlag ||| pending s.log) &&& kEventMask = pending s.log := or_and_not_of_and_eq_zero h.log.top
  rw [h.state]
  split
  · exact hmask
  · rw [BitVec.zero_or]
    have hw : kWaitFlag &&& kEventMask = 0#32 := by decide
    rwa [BitVec.and_or_distrib_right, hw, BitVec.zero_or] at hmask

theorem Inv.eq_waitFlag_iff {s : Sys} (h : Inv s) :
    s.mState = kWaitFlag ↔ s.consumer.flagged = true ∧ pending s.log = 0#32 := by
  constructor
  · intro he
    have hp : pending s.log = 0#32 := by
      rw [← h.events, he]
      decide
    refine ⟨?_, hp⟩
    by_contra hf
    rw [h.state, if_neg hf, hp] at he
    exact absurd he (by decide)
  · rintro ⟨hf, hp⟩
    rw [h.state, if_pos hf, hp]
    rfl

/-! ## The steps -/

theorem inv_init : Inv init := ⟨logOk_nil, rfl, nofun, nofun, nofun, nofun, nofun⟩

theorem Inv.log_of {s : Sys} (h : Inv s) {pc : ConsumerPc} (hpc : s.consumer = pc) (hin : pc.inFlight = []) :
    LogOk s.log s.returned := by
  have hlog := h.log
  rwa [hpc, hin, List.append_nil] at hlog

/-- Before `wait` sets its flag and after it took the bits. -/
theorem Inv.state_of {s : Sys} (h : Inv s) {pc : ConsumerPc} (hpc : s.consumer = pc) (hf : pc.flagged = false) :
    s.mState = pending s.log := by
  have hstate := h.state
  rwa [hpc, if_neg (by rw [hf]; exact Bool.false_ne_true), BitVec.zero_or] at hstate

theorem Inv.state_of_flagged {s : Sys} (h : Inv s) {pc : ConsumerPc} (hpc : s.consumer = pc) (hf : pc.flagged = true) :
    s.mState = kWaitFlag ||| pending s.log := by
  have hstate := h.state
  rwa [hpc, if_pos hf] at hstate

theorem inv_get {s s' : Sys} (h : Inv s) (hs : get s = some s') : Inv s' := by
  unfold get at hs
  split at hs
  · rename_i hpc
    rw [← Option.some.inj hs]
    have hlog := (h.log_of hpc rfl).take (e := .got s.mState) rfl (h.state_of hpc rfl) nofun
    refine ⟨?_, ?_, ?_, h.poster, ?_, ?_, ?_⟩ <;> dsimp only <;> rw [hpc]
    · simpa only [ConsumerPc.inFlight, List.append_nil] using hlog
    · rw [pending_concat]
      exact BitVec.zero_or.symm
    all_goals exact nofun
  · cases hs

/-- The consumer goes on, with its flag as it was. -/
theorem Inv.move {s : Sys} (h : Inv s) {pc : ConsumerPc} {mMutex : Option Thread} {returned : List (BitVec 32)}
    (hret : returned ++ pc.inFlight = s.returned ++ s.consumer.inFlight) (hflag : pc.flagged = s.consumer.flagged)
    (hm : pc.holds = true → mMutex = some .consumer) (hp : ∀ p, s.posters p = .unlock → mMutex = some (.poster p))
    (hne : pc ≠ .exchange) (hsleep : pc ≠ .sleep)
    (hasleep : pc = .asleep → pending s.log ≠ 0#32 → ∃ p, s.posters p ≠ .idle) :
    Inv { s with mMutex := mMutex, consumer := pc, returned := returned } where
  log := by
    dsimp only
    rw [hret]
    exact h.log
  state := by
    dsimp only
    rw [hflag]
    exact h.state
  mutex := hm
  poster := hp
  exchange := fun hpc => absurd hpc hne
  sleep := fun hpc => absurd hpc hsleep
  asleep := hasleep

theorem inv_wait {s : Sys} (h : Inv s) (hpc : s.consumer = .idle) : Inv { s with consumer := .lock } :=
  h.move (by rw [hpc]; rfl) (by rw [hpc]; rfl) nofun h.poster nofun nofun nofun

/-- Waking up, whatever for. -/
theorem inv_wake {s : Sys} (h : Inv s) (hpc : s.consumer = .asleep) : Inv { s with consumer := .relock } :=
  h.move (by rw [hpc]; rfl) (by rw [hpc]; rfl) nofun h.poster nofun nofun nofun

/-- **Going to sleep or not**: the consumer, with its flag set, has looked at the event bits. -/
theorem inv_looked {s : Sys} (h : LogOk s.log s.returned) (hm : s.mMutex = some .consumer)
    (hp : ∀ p, s.posters p = .unlock → s.mMutex = some (.poster p)) {mState : BitVec 32}
    (hstate : mState = kWaitFlag ||| pending s.log) :
    Inv { s with mState := mState, consumer := if pending s.log = 0#32 then .sleep else .exchange } := by
  split
  · rename_i h0
    refine ⟨?_, hstate, fun _ => hm, hp, nofun, fun _ hne => absurd h0 hne, nofun⟩
    simpa only [ConsumerPc.inFlight, List.append_nil] using h
  · rename_i h0
    refine ⟨?_, hstate, fun _ => hm, hp, fun _ => h0, nofun, nofun⟩
    simpa only [ConsumerPc.inFlight, List.append_nil] using h

theorem Inv.no_unlock {s : Sys} (h : Inv s) (hm : s.mMutex = none ∨ s.mMutex = some .consumer) (p : ℕ) :
    s.posters p ≠ .unlock := by
  intro hp
  have := h.poster p hp
  rcases hm with hm | hm <;> rw [hm] at this <;> cases this

theorem inv_consumerStep {s s' : Sys} (h : Inv s) (hs : consumerStep s = some s') : Inv s' := by
  unfold consumerStep at hs
  cases hpc : s.consumer with
  | idle =>
    simp only [hpc] at hs
    cases hs
  | lock =>
    simp only [hpc] at hs
    split at hs
    · rename_i hm
      rw [← Option.some.inj hs]
      exact h.move (by rw [hpc]; rfl) (by rw [hpc]; rfl) (fun _ => rfl)
        (fun p hp => absurd hp (h.no_unlock (.inl hm) p)) nofun nofun nofun
    · cases hs
  | fetchOr =>
    simp only [hpc] at hs
    rw [← Option.some.inj hs, h.events]
    have hm := h.mutex (by rw [hpc]; rfl)
    refine inv_looked (h.log_of hpc rfl) hm h.poster ?_
    rw [h.state_of hpc rfl, BitVec.or_comm]
  | sleep =>
    simp only [hpc] at hs
    rw [← Option.some.inj hs]
    have hm := h.mutex (by rw [hpc]; rfl)
    refine h.move (by rw [hpc]; rfl) (by rw [hpc]; rfl) nofun (fun p hp => absurd hp (h.no_unlock (.inr hm) p)) nofun
      nofun (fun _ hne => ?_)
    obtain ⟨p, hp⟩ := h.sleep hpc hne
    exact ⟨p, by rw [hp]; nofun⟩
  | asleep =>
    simp only [hpc] at hs
    cases hs
  | relock =>
    simp only [hpc] at hs
    split at hs
    · rename_i hm
      rw [← Option.some.inj hs]
      exact h.move (by rw [hpc]; rfl) (by rw [hpc]; rfl) (fun _ => rfl)
        (fun p hp => absurd hp (h.no_unlock (.inl hm) p)) nofun nofun nofun
    · cases hs
  | load =>
    simp only [hpc] at hs
    rw [← Option.some.inj hs, h.events]
    exact inv_looked (h.log_of hpc rfl) (h.mutex (by rw [hpc]; rfl)) h.poster (h.state_of_flagged hpc rfl)
  | exchange =>
    simp only [hpc] at hs
    rw [← Option.some.inj hs, h.events]
    have hm := h.mutex (by rw [hpc]; rfl)
    refine ⟨?_, ?_, fun _ => hm, h.poster, nofun, nofun, nofun⟩
    · exact (h.log_of hpc rfl).take rfl rfl (fun _ => h.exchange hpc)
    · dsimp only
      rw [pending_concat]
      exact BitVec.zero_or.symm
  | unlock ret =>
    simp only [hpc] at hs
    rw [← Option.some.inj hs]
    have hm := h.mutex (by rw [hpc]; rfl)
    exact h.move (by rw [hpc]; exact List.append_nil _) (by rw [hpc]; rfl) nofun
      (fun p hp => absurd hp (h.no_unlock (.inr hm) p)) nofun nofun nofun

/-! ### The posters -/

/-- **A post**: the poster that finds the consumer waiting with no event will wake it. -/
theorem inv_post {s s' : Sys} {p : ℕ} {flags : BitVec 32} (h : Inv s) (hs : post s p flags = some s') : Inv s' := by
  unfold post at hs
  split at hs
  · rename_i hg
    obtain ⟨hidle, hflag, hne⟩ := hg
    rw [← Option.some.inj hs]
    have hother : ∀ {q}, s.posters q ≠ .idle → Function.update s.posters p
        (if s.mState ≠ kWaitFlag then .idle else .lock) q = s.posters q := by
      intro q hq
      exact Function.update_of_ne (fun he => hq (by rw [he, hidle])) _ _
    have hfirst : s.consumer.flagged = true → pending s.log = 0#32 → Function.update s.posters p
        (if s.mState ≠ kWaitFlag then .idle else .lock) p = .lock := by
      intro hf h0
      rw [Function.update_self, if_neg (not_not.2 (h.eq_waitFlag_iff.2 ⟨hf, h0⟩))]
    refine ⟨h.log.post hflag, ?_, h.mutex, ?_, fun _ h0 => ?_, fun hpc _ => ?_, fun hpc _ => ?_⟩
    · dsimp only
      rw [pending_concat, Entry.after, ← BitVec.or_assoc, ← h.state]
    · refine (Function.forall_update_iff _ (fun q (pc : PosterPc) => pc = .unlock → s.mMutex = some (.poster q))).2
        ⟨fun hu => ?_, fun q _ => h.poster q⟩
      split at hu <;> cases hu
    · dsimp only at h0
      rw [pending_concat, Entry.after, BitVec.or_eq_zero_iff] at h0
      exact hne h0.2
    · have hf : s.consumer.flagged = true := by rw [show s.consumer = .sleep from hpc]; rfl
      by_cases h0 : pending s.log = 0#32
      · exact ⟨p, hfirst hf h0⟩
      · obtain ⟨q, hq⟩ := h.sleep hpc h0
        exact ⟨q, (hother (by rw [hq]; nofun)).trans hq⟩
    · have hf : s.consumer.flagged = true := by rw [show s.consumer = .asleep from hpc]; rfl
      by_cases h0 : pending s.log = 0#32
      · exact ⟨p, (hfirst hf h0).trans_ne nofun⟩
      · obtain ⟨q, hq⟩ := h.asleep hpc h0
        exact ⟨q, (hother hq).trans_ne hq⟩
  · cases hs

/-- A poster that does not wake the consumer yet goes on. -/
theorem inv_advance {s : Sys} (h : Inv s) {p : ℕ} {pc : PosterPc} {mMutex : Option Thread}
    (hm : s.consumer.holds = true → mMutex = some .consumer) (hne : pc ≠ .idle)
    (hlock : s.consumer = .sleep → s.posters p ≠ .lock)
    (hp : ∀ q, Function.update s.posters p pc q = .unlock → mMutex = some (.poster q)) :
    Inv { s with mMutex := mMutex, posters := Function.update s.posters p pc } where
  log := h.log
  state := h.state
  mutex := hm
  poster := hp
  exchange := h.exchange
  sleep := fun hpc h0 => by
    obtain ⟨q, hq⟩ := h.sleep hpc h0
    exact ⟨q, (Function.update_of_ne (fun he => hlock hpc (by rw [← he]; exact hq)) _ _).trans hq⟩
  asleep := fun hpc h0 => by
    obtain ⟨q, hq⟩ := h.asleep hpc h0
    by_cases hqp : q = p
    · exact ⟨p, by dsimp only; rwa [Function.update_self]⟩
    · exact ⟨q, by dsimp only; rwa [Function.update_of_ne hqp]⟩

theorem inv_posterStep {s s' : Sys} {p : ℕ} (h : Inv s) (hs : posterStep s p = some s') : Inv s' := by
  unfold posterStep at hs
  cases hpc : s.posters p with
  | idle =>
    simp only [hpc] at hs
    cases hs
  | lock =>
    simp only [hpc] at hs
    split at hs
    · rename_i hm
      rw [← Option.some.inj hs]
      have hholds : s.consumer.holds ≠ true := fun hh => by
        have := h.mutex hh
        rw [hm] at this
        cases this
      refine inv_advance h (fun hh => absurd hh hholds) nofun (fun hsl => absurd (by rw [hsl]; rfl) hholds) ?_
      exact (Function.forall_update_iff _ (fun q (pc : PosterPc) => pc = .unlock → _ = some (Thread.poster q))).2
        ⟨fun _ => rfl, fun q _ hq => absurd hq (h.no_unlock (.inl hm) q)⟩
    · cases hs
  | unlock =>
    simp only [hpc] at hs
    rw [← Option.some.inj hs]
    have hm := h.poster p hpc
    refine inv_advance h (fun hh => ?_) nofun (fun _ => by rw [hpc]; nofun) ?_
    · rw [h.mutex hh] at hm
      cases hm
    · refine (Function.forall_update_iff _ (fun q (pc : PosterPc) => pc = .unlock → none = some (Thread.poster q))).2
        ⟨nofun, fun q hqp hq => ?_⟩
      have hq := h.poster q hq
      rw [hm] at hq
      cases hq
      exact absurd rfl hqp
  | notify =>
    simp only [hpc] at hs
    rw [← Option.some.inj hs]
    have hposter : ∀ q, Function.update s.posters p .idle q = .unlock → s.mMutex = some (.poster q) :=
      (Function.forall_update_iff _ (fun q (pc : PosterPc) => pc = .unlock → s.mMutex = some (.poster q))).2
        ⟨nofun, fun q _ => h.poster q⟩
    by_cases hasleep : s.consumer = .asleep
    · rw [if_pos hasleep]
      have hw := inv_wake h hasleep
      exact ⟨hw.log, hw.state, nofun, hposter, nofun, nofun, nofun⟩
    · rw [if_neg hasleep]
      refine ⟨h.log, h.state, h.mutex, hposter, h.exchange, fun hsl h0 => ?_, fun ha => absurd ha hasleep⟩
      obtain ⟨q, hq⟩ := h.sleep hsl h0
      refine ⟨q, (Function.update_of_ne (fun he => ?_) _ _).trans hq⟩
      rw [he, hpc] at hq
      cases hq

/-- **Every step keeps the invariant.** -/
theorem inv_step {s s' : Sys} {a : Action} (h : Inv s) (hs : step s a = some s') : Inv s' := by
  cases a with
  | get => exact inv_get h hs
  | wait =>
    simp only [step] at hs
    split at hs
    · rename_i hpc
      rw [← Option.some.inj hs]
      exact inv_wait h hpc
    · cases hs
  | consumer => exact inv_consumerStep h hs
  | wake =>
    simp only [step] at hs
    split at hs
    · rename_i hpc
      rw [← Option.some.inj hs]
      exact inv_wake h hpc
    · cases hs
  | post p flags => exact inv_post h hs
  | poster p => exact inv_posterStep h hs

/-! ## What a call gets -/

/-- **What is posted is delivered**: a post adds its bits to those in the state word, `get` and the exchange of `wait` take
all of them and leave none, and `wait` returns what it took. -/
structure Delivers (s : Sys) : Prop where
  post : ∀ p flags s', step s (.post p flags) = some s' → s'.mState &&& kEventMask = (s.mState &&& kEventMask) ||| flags
  get : s.consumer = .idle → ∃ s', step s .get = some s' ∧
    s'.returned = s.returned ++ [s.mState &&& kEventMask] ∧ s'.mState &&& kEventMask = 0#32
  exchange : s.consumer = .exchange → ∃ s', step s .consumer = some s' ∧
    s'.consumer = .unlock (s.mState &&& kEventMask) ∧ s'.mState &&& kEventMask = 0#32
  unlock : ∀ ret, s.consumer = .unlock ret → ∃ s', step s .consumer = some s' ∧ s'.returned = s.returned ++ [ret]

theorem flags_events {flags : BitVec 32} (h : flags &&& kWaitFlag = 0#32) : flags &&& kEventMask = flags := by
  have hf := or_and_not_of_and_eq_zero h
  have hw : kWaitFlag &&& kEventMask = 0#32 := by decide
  change (kWaitFlag ||| flags) &&& kEventMask = flags at hf
  rwa [BitVec.and_or_distrib_right, hw, BitVec.zero_or] at hf

theorem Inv.delivers {s : Sys} (h : Inv s) : Delivers s where
  post := by
    intro p flags s' hs
    simp only [step, post] at hs
    split at hs
    · rename_i hp
      rw [← Option.some.inj hs]
      dsimp only
      rw [BitVec.and_or_distrib_right, flags_events hp.2.1]
    · cases hs
  get := by
    intro hpc
    have hstate := h.state_of hpc rfl
    refine ⟨_, if_pos hpc, ?_, BitVec.zero_and⟩
    dsimp only
    rw [h.events, hstate]
  exchange := by
    intro hpc
    simp only [step, consumerStep, hpc]
    exact ⟨_, rfl, rfl, BitVec.zero_and⟩
  unlock := by
    intro ret hpc
    simp only [step, consumerStep, hpc]
    exact ⟨_, rfl, rfl⟩

/-! ## Every interleaving -/

/-- **In every interleaving** each exchange of `get` or `wait` takes exactly the bits posted since the one before it, what
is posted and not taken is in the state word, the calls return what their exchanges took, and all these are together the
bits posted; the next call gets all of what is in the state word and leaves none of it; `wait` takes no zero and neither
call returns the wait bit; and where the consumer is asleep with an event pending, a poster is on its way to wake it. -/
theorem no_event_lost (actions : List Action) (s : Sys) (hrun : run step init actions = some s) :
    (∀ pre e post, s.log = pre ++ e :: post → ∀ ret, e.ret = some ret → ret = pending pre) ∧
      s.mState &&& kEventMask = pending s.log ∧
      s.returned ++ s.consumer.inFlight = s.log.filterMap Entry.ret ∧
      bits (s.returned ++ s.consumer.inFlight) ||| (s.mState &&& kEventMask) = bits (s.log.filterMap Entry.flags) ∧
      Delivers s ∧
      (∀ ret, .waited ret ∈ s.log → ret ≠ 0#32) ∧
      (∀ ret ∈ s.returned, ret &&& kWaitFlag = 0#32) ∧
      (s.consumer = .asleep → s.mState &&& kEventMask ≠ 0#32 → ∃ p, s.posters p ≠ .idle) := by
  have h := run_inv Inv (fun _ _ _ hi hs => inv_step hi hs) actions _ s inv_init hrun
  have hbits := h.log.posted
  rw [← h.events] at hbits
  refine ⟨h.log.rets, h.events, h.log.returned, hbits, h.delivers, h.log.waited, fun ret hr => ?_, fun hpc hne => ?_⟩
  · exact h.log.noFlag ret (List.mem_append_left _ hr)
  · rw [h.events] at hne
    exact h.asleep hpc hne

/-- The consumer, asleep, wakes up for no reason after a post and gets its bits; then two calls of `get` take what was
posted before each, while the first poster is still on its way to notify. -/
def sampleActions : List Action :=
  [.wait, .consumer, .consumer, .consumer, .post 0 1, .wake, .consumer, .consumer, .consumer, .consumer, .post 1 2, .get,
    .poster 0, .post 2 4, .poster 0, .post 1 8, .get, .poster 0, .post 1 16]

theorem no_event_lost_race : ∃ s, run step init sampleActions = some s ∧
    s.returned = [1#32, 2#32, 12#32] ∧ s.mState &&& kEventMask = 16#32 ∧
    ∃ s', step s .get = some s' ∧ s'.returned = [1#32, 2#32, 12#32, 16#32] ∧ s'.mState &&& kEventMask = 0#32 := by
  obtain ⟨s, hs⟩ : ∃ s, run step init sampleActions = some s := ⟨_, rfl⟩
  have hreturned : s.returned = [1#32, 2#32, 12#32] := by cases hs; rfl
  have hstate : s.mState &&& kEventMask = 16#32 := by cases hs; rfl
  have hidle : s.consumer = .idle := by cases hs; rfl
  obtain ⟨-, -, -, -, hdelivers, -⟩ := no_event_lost sampleActions s hs
  obtain ⟨s', hget, hret, hleft⟩ := hdelivers.get hidle
  rw [hreturned, hstate] at hret
  exact ⟨s, hs, hreturned, hstate, s', hget, hret, hleft⟩

end Events
end Fzx
