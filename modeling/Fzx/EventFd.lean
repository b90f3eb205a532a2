import Fzx.Lib.Run
/-!
# EventFd — helper/eventfd.cpp

Any number of threads notify one consumer through a pipe, of which the bytes it holds are counted; it is open all the
time.  A step takes the mutex or gives it back, exchanges the flag, writes or reads.  What a write does is the step's
own: the system decides it.

`exchanges` counts the accesses to the flag, and `notified` and `consumed` are the numbers of those of the completed
calls, which no step reads.
-/
namespace Fzx

open Lib

namespace EventFd

/-- What a write returns: 1, 0, -1 with a code to try again at, -1 with another one. -/
inductive WriteResult where
  | one
  | zero
  | again
  | fatal
deriving DecidableEq

/-- Where a thread is in `notify`: before the named operation, with the number of its exchange. -/
inductive NotifyPc where
  | idle
  | lock
  | exchange
  | write (i pos : ℕ)
  | unlock (pos : ℕ) (thrown : Bool)
deriving DecidableEq

inductive ConsumePc where
  | idle
  | exchange
  | read (pos : ℕ)
deriving DecidableEq

structure Sys where
  mActive : Bool
  pipe : ℕ
  mMutex : Option ℕ
  notifiers : ℕ → NotifyPc
  consumer : ConsumePc
  exchanges : ℕ
  notified : List ℕ
  consumed : List ℕ

def init : Sys :=
  { mActive := false, pipe := 0, mMutex := none, notifiers := fun _ => .idle, consumer := .idle, exchanges := 0
    notified := [], consumed := [] }

inductive Action where
  | notify (p : ℕ)
  | notifier (p : ℕ)
  | write (p : ℕ) (r : WriteResult)
  | consume
  | consumer

/-- The next step of `notify` that is no write; `none` when it is not called or blocked. -/
def notifierStep (s : Sys) (p : ℕ) : Option Sys :=
  match s.notifiers p with
  | .idle => none
  | .lock =>
    if s.mMutex = none then
      some { s with mMutex := some p, notifiers := Function.update s.notifiers p .exchange }
    else none
  | .exchange =>
    let pos := s.exchanges
    let next := if s.mActive then .unlock pos false else .write 0 pos
    some { s with mActive := true, notifiers := Function.update s.notifiers p next, exchanges := pos + 1 }
  | .write _ _ => none
  | .unlock pos thrown =>
    some { s with mMutex := none
                  notifiers := Function.update s.notifiers p .idle
                  notified := if thrown then s.notified else s.notified ++ [pos] }

/-- Where the loop over the attempts goes on after a write. -/
def nextAttempt (i pos : ℕ) : WriteResult → NotifyPc
  | .one => .unlock pos false
  | .zero | .again => if i + 1 < 5 then .write (i + 1) pos else .unlock pos true
  | .fatal => .unlock pos true

def writeStep (s : Sys) (p : ℕ) (r : WriteResult) : Option Sys :=
  match s.notifiers p with
  | .write i pos =>
    some { s with pipe := if r = .one then s.pipe + 1 else s.pipe
                  notifiers := Function.update s.notifiers p (nextAttempt i pos r) }
  | _ => none

def consumerStep (s : Sys) : Option Sys :=
  match s.consumer with
  | .idle => none
  | .exchange =>
    let pos := s.exchanges
    if s.mActive then some { s with mActive := false, consumer := .read pos, exchanges := pos + 1 }
    else some { s with consumer := .idle, exchanges := pos + 1, consumed := s.consumed ++ [pos] }
  -- the read end does not block on an empty pipe
  | .read pos => some { s with pipe := s.pipe - 1, consumer := .idle, consumed := s.consumed ++ [pos] }

def step (s : Sys) : Action → Option Sys
  | .notify p =>
    if s.notifiers p = .idle then some { s with notifiers := Function.update s.notifiers p .lock } else none
  | .notifier p => notifierStep s p
  | .write p r => writeStep s p r
  | .consume => if s.consumer = .idle then some { s with consumer := .exchange } else none
  | .consumer => consumerStep s

/-! ## What is promised -/

/-- Every write succeeds, and `consume` is called only when there is something to read. -/
def Orderly (s : Sys) : Action → Prop
  | .notify _ | .notifier _ | .consumer => True
  | .write _ r => r = .one
  | .consume => 1 ≤ s.pipe

instance (s : Sys) : ∀ a, Decidable (Orderly s a)
  | .notify _ | .notifier _ | .consumer => .isTrue trivial
  | .write _ r => inferInstanceAs (Decidable (r = .one))
  | .consume => inferInstanceAs (Decidable (1 ≤ s.pipe))

/-- No call is in progress. -/
def Sys.quiet (s : Sys) : Prop := (∀ p, s.notifiers p = .idle) ∧ s.consumer = .idle

/-! ## What a step can do -/

theorem notifierStep_cases {s s' : Sys} {p : ℕ} (hs : notifierStep s p = some s') :
    (s.notifiers p = .lock ∧ s.mMutex = none ∧
      s' = { s with mMutex := some p, notifiers := Function.update s.notifiers p .exchange }) ∨
    (s.notifiers p = .exchange ∧ s.mActive = false ∧
      s' = { s with mActive := true, exchanges := s.exchanges + 1
                    notifiers := Function.update s.notifiers p (.write 0 s.exchanges) }) ∨
    (s.notifiers p = .exchange ∧ s.mActive = true ∧
      s' = { s with mActive := true, exchanges := s.exchanges + 1
                    notifiers := Function.update s.notifiers p (.unlock s.exchanges false) }) ∨
    ∃ pos thrown, s.notifiers p = .unlock pos thrown ∧
      s' = { s with mMutex := none, notifiers := Function.update s.notifiers p .idle
                    notified := if thrown then s.notified else s.notified ++ [pos] } := by
  unfold notifierStep at hs
  cases hpc : s.notifiers p with
  | idle =>
    simp only [hpc] at hs
    cases hs
  | lock =>
    simp only [hpc] at hs
    split at hs
    · rename_i hm
      exact .inl ⟨rfl, hm, (Option.some.inj hs).symm⟩
    · cases hs
  | exchange =>
    simp only [hpc] at hs
    cases ha : s.mActive with
    | false =>
      rw [ha] at hs
      exact .inr (.inl ⟨rfl, rfl, (Option.some.inj hs).symm⟩)
    | true =>
      rw [ha] at hs
      exact .inr (.inr (.inl ⟨rfl, rfl, (Option.some.inj hs).symm⟩))
  | write i pos =>
    simp only [hpc] at hs
    cases hs
  | unlock pos thrown =>
    simp only [hpc] at hs
    exact .inr (.inr (.inr ⟨pos, thrown, rfl, (Option.some.inj hs).symm⟩))

theorem writeStep_cases {s s' : Sys} {p : ℕ} {r : WriteResult} (hs : writeStep s p r = some s') :
    ∃ i pos, s.notifiers p = .write i pos ∧
      s' = { s with pipe := if r = .one then s.pipe + 1 else s.pipe
                    notifiers := Function.update s.notifiers p (nextAttempt i pos r) } := by
  unfold writeStep at hs
  split at hs
  · rename_i i pos hpc
    exact ⟨i, pos, hpc, (Option.some.inj hs).symm⟩
  · cases hs

theorem consumerStep_cases {s s' : Sys} (hs : consumerStep s = some s') :
    (s.consumer = .exchange ∧ s.mActive = true ∧
      s' = { s with mActive := false, consumer := .read s.exchanges, exchanges := s.exchanges + 1 }) ∨
    (s.consumer = .exchange ∧ s.mActive = false ∧
      s' = { s with consumer := .idle, exchanges := s.exchanges + 1, consumed := s.consumed ++ [s.exchanges] }) ∨
    ∃ pos, s.consumer = .read pos ∧
      s' = { s with pipe := s.pipe - 1, consumer := .idle, consumed := s.consumed ++ [pos] } := by
  unfold consumerStep at hs
  cases hpc : s.consumer with
  | idle =>
    simp only [hpc] at hs
    cases hs
  | exchange =>
    simp only [hpc] at hs
    split at hs
    · rename_i ha
      exact .inl ⟨rfl, ha, (Option.some.inj hs).symm⟩
    · rename_i ha
      exact .inr (.inl ⟨rfl, Bool.eq_false_iff.2 ha, (Option.some.inj hs).symm⟩)
  | read pos =>
    simp only [hpc] at hs
    exact .inr (.inr ⟨pos, rfl, (Option.some.inj hs).symm⟩)

theorem notify_cases {s s' : Sys} {p : ℕ} (hs : step s (.notify p) = some s') :
    s.notifiers p = .idle ∧ s' = { s with notifiers := Function.update s.notifiers p .lock } := by
  obtain ⟨hpc, he⟩ := Option.ite_none_right_eq_some.1 hs
  exact ⟨hpc, (Option.some.inj he).symm⟩

theorem consume_cases {s s' : Sys} (hs : step s .consume = some s') :
    s.consumer = .idle ∧ s' = { s with consumer := .exchange } := by
  obtain ⟨hpc, he⟩ := Option.ite_none_right_eq_some.1 hs
  exact ⟨hpc, (Option.some.inj he).symm⟩

/-! ## The invariant -/

def NotifyPc.holds : NotifyPc → Bool
  | .exchange | .write _ _ | .unlock _ _ => true
  | .idle | .lock => false

/-- The bytes still to be written by a thread that has set the flag. -/
def NotifyPc.owed : NotifyPc → ℕ
  | .write _ _ => 1
  | .idle | .lock | .exchange | .unlock _ _ => 0

/-- The bytes still to be read by the consumer that has reset the flag. -/
def ConsumePc.due : ConsumePc → ℕ
  | .read _ => 1
  | .idle | .exchange => 0

/-- The bytes still to be written: only the thread with the mutex writes. -/
def owed (mMutex : Option ℕ) (notifiers : ℕ → NotifyPc) : ℕ := mMutex.elim 0 (fun p => (notifiers p).owed)

/-- What came of the notification with the exchange `pos`: a later exchange has consumed it, or it is in the pipe. -/
def Signalled (s : Sys) (pos : ℕ) : Prop :=
  (∃ j, pos < j ∧ (j ∈ s.consumed ∨ s.consumer = .read j)) ∨ (s.mActive = true ∧ owed s.mMutex s.notifiers = 0)

structure Inv (s : Sys) : Prop where
  mutex : ∀ p, (s.notifiers p).holds = true ↔ s.mMutex = some p
  bytes : s.pipe + owed s.mMutex s.notifiers = s.mActive.toNat + s.consumer.due
  active : owed s.mMutex s.notifiers ≤ s.mActive.toNat
  exchange : s.consumer = .exchange → 1 ≤ s.pipe
  writer : ∀ p i pos, s.notifiers p = .write i pos → pos < s.exchanges
  unlock : ∀ p pos thrown, s.notifiers p = .unlock pos thrown → pos < s.exchanges ∧ Signalled s pos
  notified : ∀ pos ∈ s.notified, pos < s.exchanges ∧ Signalled s pos

theorem owed_update (p : ℕ) (notifiers : ℕ → NotifyPc) (pc : NotifyPc) :
    owed (some p) (Function.update notifiers p pc) = pc.owed := by
  rw [owed, Option.elim_some, Function.update_self]

theorem owed_update_of_ne {mMutex : Option ℕ} {p : ℕ} (h : mMutex ≠ some p) (notifiers : ℕ → NotifyPc) (pc : NotifyPc) :
    owed mMutex (Function.update notifiers p pc) = owed mMutex notifiers := by
  cases mMutex with
  | none => rfl
  | some q =>
    have hqp : q ≠ p := fun he => h (by rw [he])
    rw [owed, owed, Option.elim_some, Option.elim_some, Function.update_of_ne hqp]

section Mutex

variable {s s' : Sys} (h : ∀ p, (s.notifiers p).holds = true ↔ s.mMutex = some p) {p : ℕ} {pc : NotifyPc}
include h

theorem ne_mutex (hpc : s.notifiers p = pc) (hh : pc.holds = false) : s.mMutex ≠ some p := by
  intro hm
  have hp := (h p).2 hm
  rw [hpc, hh] at hp
  cases hp

/-- The thread that has the mutex, and what it owes. -/
theorem eq_mutex (hpc : s.notifiers p = pc) (hh : pc.holds = true) :
    s.mMutex = some p ∧ owed s.mMutex s.notifiers = pc.owed := by
  have hm : s.mMutex = some p := (h p).1 (by rw [hpc, hh])
  exact ⟨hm, by rw [hm, owed, Option.elim_some, hpc]⟩

/-- One thread moves. -/
theorem mutex_update (hs : s'.notifiers = Function.update s.notifiers p pc) (hp : pc.holds = true ↔ s'.mMutex = some p)
    (hq : ∀ q, q ≠ p → (s'.mMutex = some q ↔ s.mMutex = some q)) :
    ∀ q, (s'.notifiers q).holds = true ↔ s'.mMutex = some q := by
  rw [hs]
  exact (Function.forall_update_iff _ (fun q (pc : NotifyPc) => pc.holds = true ↔ s'.mMutex = some q)).2
    ⟨hp, fun q hqp => (h q).trans (hq q hqp).symm⟩

end Mutex

/-- The bytes, with what the thread that has the mutex owes. -/
theorem Inv.bytes_eq {s : Sys} (h : Inv s) {p : ℕ} {pc : NotifyPc} (hpc : s.notifiers p = pc) (hh : pc.holds = true) :
    s.mMutex = some p ∧ owed s.mMutex s.notifiers = pc.owed ∧ s.pipe + pc.owed = s.mActive.toNat + s.consumer.due := by
  obtain ⟨hm, howed⟩ := eq_mutex h.mutex hpc hh
  exact ⟨hm, howed, howed ▸ h.bytes⟩

theorem Signalled.of_set {s s' : Sys} {pos : ℕ} (h : Signalled s pos) (hd : s'.consumed = s.consumed)
    (hc : s'.consumer = s.consumer) (hset : s.mActive = true → s'.mActive = true ∧ owed s'.mMutex s'.notifiers = 0) :
    Signalled s' pos := by
  rcases h with h | h
  · exact .inl (by rw [hd, hc]; exact h)
  · exact .inr (hset h.1)

/-! ## The steps -/

theorem inv_init : Inv init where
  mutex := fun _ => ⟨nofun, nofun⟩
  bytes := rfl
  active := Nat.le_refl 0
  exchange := nofun
  writer := nofun
  unlock := nofun
  notified := nofun

/-- A step of the thread `p` in `notify`, which owes `n` bytes after it. -/
theorem inv_update {s s' : Sys} (h : Inv s) {p n : ℕ} {pc : NotifyPc}
    (hs : s'.notifiers = Function.update s.notifiers p pc) (hc : s'.consumer = s.consumer)
    (hp : pc.holds = true ↔ s'.mMutex = some p) (hq : ∀ q, q ≠ p → (s'.mMutex = some q ↔ s.mMutex = some q))
    (howed : owed s'.mMutex s'.notifiers = n) (hbytes : s'.pipe + n = s'.mActive.toNat + s.consumer.due)
    (hactive : n ≤ s'.mActive.toNat) (hpipe : s.pipe ≤ s'.pipe) (hexchanges : s.exchanges ≤ s'.exchanges)
    (hsig : ∀ pos, Signalled s pos → Signalled s' pos) (hwrite : ∀ i pos, pc = .write i pos → pos < s'.exchanges)
    (hunlock : ∀ pos thrown, pc = .unlock pos thrown → pos < s'.exchanges ∧ Signalled s' pos)
    (hnotified : ∀ pos ∈ s'.notified, pos < s.exchanges ∧ Signalled s pos) : Inv s' where
  mutex := mutex_update h.mutex hs hp hq
  bytes := by rw [howed, hbytes, hc]
  active := by rwa [howed]
  exchange := fun hpc => Nat.le_trans (h.exchange (by rw [← hc, hpc])) hpipe
  writer := by
    rw [hs]
    exact (Function.forall_update_iff _ (fun _ pc => ∀ i pos, pc = NotifyPc.write i pos → pos < s'.exchanges)).2
      ⟨hwrite, fun q _ i pos hpc => Nat.lt_of_lt_of_le (h.writer q i pos hpc) hexchanges⟩
  unlock := by
    rw [hs]
    refine (Function.forall_update_iff _ (fun _ pc => ∀ pos thrown, pc = NotifyPc.unlock pos thrown →
      pos < s'.exchanges ∧ Signalled s' pos)).2 ⟨hunlock, fun q _ pos thrown hpc => ?_⟩
    obtain ⟨hlt, hsg⟩ := h.unlock q pos thrown hpc
    exact ⟨Nat.lt_of_lt_of_le hlt hexchanges, hsig pos hsg⟩
  notified := fun pos hpos => by
    obtain ⟨hlt, hsg⟩ := hnotified pos hpos
    exact ⟨Nat.lt_of_lt_of_le hlt hexchanges, hsig pos hsg⟩

theorem inv_notify {s : Sys} (h : Inv s) {p : ℕ} (hpc : s.notifiers p = .idle) :
    Inv { s with notifiers := Function.update s.notifiers p .lock } := by
  have hm := ne_mutex h.mutex hpc rfl
  have howed := owed_update_of_ne hm s.notifiers .lock
  refine inv_update h rfl rfl ⟨nofun, fun he => absurd he hm⟩ (fun _ _ => Iff.rfl) howed h.bytes h.active (Nat.le_refl _)
    (Nat.le_refl _) (fun pos hsg => ?_) nofun nofun h.notified
  rw [Signalled, howed]
  exact hsg

theorem inv_lock {s : Sys} (h : Inv s) {p : ℕ} (hm : s.mMutex = none) :
    Inv { s with mMutex := some p, notifiers := Function.update s.notifiers p .exchange } := by
  have howed : owed s.mMutex s.notifiers = 0 := by rw [hm]; rfl
  have hbytes := h.bytes
  rw [howed] at hbytes
  have hother : ∀ q, q ≠ p → (some p = some q ↔ s.mMutex = some q) := fun q hqp => by
    rw [hm]
    exact ⟨fun he => absurd (Option.some.inj he).symm hqp, nofun⟩
  refine inv_update h rfl rfl ⟨fun _ => rfl, fun _ => rfl⟩ hother (owed_update _ _ _) hbytes (Nat.zero_le _)
    (Nat.le_refl _) (Nat.le_refl _) (fun pos hsg => ?_) nofun nofun h.notified
  exact hsg.of_set rfl rfl (fun ha => ⟨ha, owed_update _ _ _⟩)

/-- The thread that sets the flag owes a byte. -/
theorem inv_set {s : Sys} (h : Inv s) {p : ℕ} (hpc : s.notifiers p = .exchange) (ha : s.mActive = false) :
    Inv { s with mActive := true, exchanges := s.exchanges + 1
                 notifiers := Function.update s.notifiers p (.write 0 s.exchanges) } := by
  obtain ⟨hm, -, hbytes⟩ := h.bytes_eq hpc rfl
  have howed : owed s.mMutex (Function.update s.notifiers p (.write 0 s.exchanges)) = 1 := by
    rw [hm, owed_update]
    rfl
  rw [ha] at hbytes
  refine inv_update h rfl rfl ⟨fun _ => hm, fun _ => rfl⟩ (fun _ _ => Iff.rfl) howed ?_ (Nat.le_refl 1) (Nat.le_refl _)
    (Nat.le_succ _) (fun pos hsg => ?_) (fun i pos he => ?_) nofun h.notified
  · have : s.pipe + 0 = 0 + s.consumer.due := hbytes
    show s.pipe + 1 = 1 + s.consumer.due
    omega
  · refine hsg.of_set rfl rfl (fun ha' => ?_)
    rw [ha] at ha'
    exact absurd ha' Bool.false_ne_true
  · cases he
    exact Nat.lt_succ_self _

/-- The thread that finds the flag set leaves it to the byte that is there. -/
theorem inv_seen {s : Sys} (h : Inv s) {p : ℕ} (hpc : s.notifiers p = .exchange) (ha : s.mActive = true) :
    Inv { s with mActive := true, exchanges := s.exchanges + 1
                 notifiers := Function.update s.notifiers p (.unlock s.exchanges false) } := by
  obtain ⟨hm, -, hbytes⟩ := h.bytes_eq hpc rfl
  have howed : owed s.mMutex (Function.update s.notifiers p (.unlock s.exchanges false)) = 0 := by
    rw [hm, owed_update]
    rfl
  rw [ha] at hbytes
  refine inv_update h rfl rfl ⟨fun _ => hm, fun _ => rfl⟩ (fun _ _ => Iff.rfl) howed hbytes (Nat.zero_le _)
    (Nat.le_refl _) (Nat.le_succ _) (fun pos hsg => ?_) nofun (fun pos thrown he => ?_) h.notified
  · exact hsg.of_set rfl rfl (fun _ => ⟨rfl, howed⟩)
  · cases he
    exact ⟨Nat.lt_succ_self _, .inr ⟨rfl, howed⟩⟩

/-- A call ends, with an exception or without. -/
theorem inv_unlock {s : Sys} (h : Inv s) {p pos : ℕ} {thrown : Bool} (hpc : s.notifiers p = .unlock pos thrown) :
    Inv { s with mMutex := none, notifiers := Function.update s.notifiers p .idle
                 notified := if thrown then s.notified else s.notified ++ [pos] } := by
  obtain ⟨hm, -, hbytes⟩ := h.bytes_eq hpc rfl
  have hother : ∀ q, q ≠ p → (none = some q ↔ s.mMutex = some q) := fun q hqp => by
    rw [hm]
    exact ⟨nofun, fun he => absurd (Option.some.inj he).symm hqp⟩
  refine inv_update h rfl rfl ⟨nofun, nofun⟩ hother rfl hbytes (Nat.zero_le _) (Nat.le_refl _)
    (Nat.le_refl _) (fun k hsg => ?_) nofun nofun (fun k hk => ?_)
  · exact hsg.of_set rfl rfl (fun ha => ⟨ha, rfl⟩)
  · dsimp only at hk
    split at hk
    · exact h.notified k hk
    · rcases List.mem_append.1 hk with hk | hk
      · exact h.notified k hk
      · rw [List.mem_singleton.1 hk]
        exact h.unlock p pos thrown hpc

theorem inv_notifierStep {s s' : Sys} {p : ℕ} (h : Inv s) (hs : notifierStep s p = some s') : Inv s' := by
  rcases notifierStep_cases hs with ⟨-, hm, rfl⟩ | ⟨hpc, ha, rfl⟩ | ⟨hpc, ha, rfl⟩ | ⟨pos, thrown, hpc, rfl⟩
  · exact inv_lock h hm
  · exact inv_set h hpc ha
  · exact inv_seen h hpc ha
  · exact inv_unlock h hpc

/-- **A write that succeeds** puts the byte owed into the pipe. -/
theorem inv_writeStep {s s' : Sys} {p : ℕ} (h : Inv s) (hs : writeStep s p .one = some s') : Inv s' := by
  obtain ⟨i, pos, hpc, rfl⟩ := writeStep_cases hs
  obtain ⟨hm, hone, hbytes⟩ := h.bytes_eq hpc rfl
  have hactive : s.mActive = true := by
    have hle := h.active
    rw [hone] at hle
    cases ha : s.mActive with
    | true => rfl
    | false =>
      rw [ha] at hle
      exact absurd hle (Nat.not_succ_le_zero 0)
  have howed : owed s.mMutex (Function.update s.notifiers p (nextAttempt i pos .one)) = 0 := by
    rw [hm, owed_update]
    rfl
  refine inv_update h rfl rfl ⟨fun _ => hm, fun _ => rfl⟩ (fun _ _ => Iff.rfl) howed hbytes (Nat.zero_le _)
    (Nat.le_succ _) (Nat.le_refl _) (fun k hsg => ?_) nofun (fun k thrown he => ?_) h.notified
  · exact hsg.of_set rfl rfl (fun ha => ⟨ha, howed⟩)
  · cases he
    exact ⟨h.writer p i pos hpc, .inr ⟨hactive, howed⟩⟩

/-- A step of the consumer, of which every notification so far keeps its signal. -/
theorem inv_consumer {s s' : Sys} (h : Inv s) (hn : s'.notifiers = s.notifiers) (hm : s'.mMutex = s.mMutex)
    (hd : s'.notified = s.notified) (hbytes : s'.pipe + owed s.mMutex s.notifiers = s'.mActive.toNat + s'.consumer.due)
    (hactive : owed s.mMutex s.notifiers ≤ s'.mActive.toNat) (hexchange : s'.consumer = .exchange → 1 ≤ s'.pipe)
    (hexchanges : s.exchanges ≤ s'.exchanges)
    (hsig : ∀ pos, pos < s.exchanges → Signalled s pos → Signalled s' pos) : Inv s' where
  mutex := by rw [hn, hm]; exact h.mutex
  bytes := by rw [hn, hm]; exact hbytes
  active := by rw [hn, hm]; exact hactive
  exchange := hexchange
  writer := fun p i pos hpc => Nat.lt_of_lt_of_le (h.writer p i pos (by rw [← hn, hpc])) hexchanges
  unlock := fun p pos thrown hpc => by
    obtain ⟨hlt, hsg⟩ := h.unlock p pos thrown (by rw [← hn, hpc])
    exact ⟨Nat.lt_of_lt_of_le hlt hexchanges, hsig pos hlt hsg⟩
  notified := fun pos hpos => by
    rw [hd] at hpos
    obtain ⟨hlt, hsg⟩ := h.notified pos hpos
    exact ⟨Nat.lt_of_lt_of_le hlt hexchanges, hsig pos hlt hsg⟩

theorem Signalled.of_consumer {s s' : Sys} {pos : ℕ} (h : Signalled s pos)
    (hc : ∀ j, j ∈ s.consumed ∨ s.consumer = .read j → j ∈ s'.consumed ∨ s'.consumer = .read j)
    (ha : s'.mActive = s.mActive) (hn : s'.notifiers = s.notifiers) (hm : s'.mMutex = s.mMutex) : Signalled s' pos := by
  rcases h with ⟨j, hj, hjc⟩ | hs
  · exact .inl ⟨j, hj, hc j hjc⟩
  · exact .inr (by rw [ha, hn, hm]; exact hs)

theorem inv_consume {s : Sys} (h : Inv s) (hpc : s.consumer = .idle) (hpipe : 1 ≤ s.pipe) :
    Inv { s with consumer := .exchange } := by
  have hbytes := h.bytes
  rw [hpc] at hbytes
  refine inv_consumer h rfl rfl rfl hbytes h.active (fun _ => hpipe) (Nat.le_refl _) (fun pos _ hsg => ?_)
  refine hsg.of_consumer (fun j hj => ?_) rfl rfl rfl
  rw [hpc] at hj
  exact hj.imp_right nofun

/-- **The exchange of `consume`** takes every notification so far; the byte of it is in the pipe, as there was one when
`consume` was called and nobody else reads. -/
theorem inv_consumerStep {s s' : Sys} (h : Inv s) (hs : consumerStep s = some s') : Inv s' := by
  have hbytes := h.bytes
  have hactive := h.active
  rcases consumerStep_cases hs with ⟨hpc, ha, rfl⟩ | ⟨hpc, ha, rfl⟩ | ⟨pos, hpc, rfl⟩
  · have hpipe := h.exchange hpc
    rw [hpc, ha] at hbytes
    have hbytes : s.pipe + owed s.mMutex s.notifiers = 1 := hbytes
    refine inv_consumer h rfl rfl rfl hbytes ?_ nofun (Nat.le_succ _) (fun pos hlt _ => .inl ⟨s.exchanges, hlt, .inr rfl⟩)
    show owed s.mMutex s.notifiers ≤ 0
    omega
  · rw [hpc] at hbytes
    refine inv_consumer h rfl rfl rfl hbytes hactive nofun (Nat.le_succ _)
      (fun pos hlt _ => .inl ⟨s.exchanges, hlt, ?_⟩)
    exact .inl (List.mem_append_right _ List.mem_cons_self)
  · rw [hpc] at hbytes
    refine inv_consumer h rfl rfl rfl ?_ hactive nofun (Nat.le_refl _) (fun k _ hsg => ?_)
    · have : s.pipe + owed s.mMutex s.notifiers = s.mActive.toNat + 1 := hbytes
      show s.pipe - 1 + owed s.mMutex s.notifiers = s.mActive.toNat + 0
      omega
    · refine hsg.of_consumer (fun j hj => .inl ?_) rfl rfl rfl
      rcases hj with hj | hj
      · exact List.mem_append_left _ hj
      · rw [hpc] at hj
        cases hj
        exact List.mem_append_right _ List.mem_cons_self

/-- **Every orderly step keeps the invariant.** -/
theorem inv_step {s s' : Sys} {a : Action} (h : Inv s) (ho : Orderly s a) (hs : step s a = some s') : Inv s' := by
  cases a with
  | notify p =>
    obtain ⟨hpc, rfl⟩ := notify_cases hs
    exact inv_notify h hpc
  | notifier p => exact inv_notifierStep h hs
  | write p r =>
    cases (ho : r = .one)
    exact inv_writeStep h hs
  | consume =>
    obtain ⟨hpc, rfl⟩ := consume_cases hs
    exact inv_consume h hpc ho
  | consumer => exact inv_consumerStep h hs

/-! ## Every interleaving -/

theorem owed_quiet {s : Sys} (h : ∀ p, s.notifiers p = .idle) : owed s.mMutex s.notifiers = 0 := by
  cases hm : s.mMutex with
  | none => rfl
  | some p =>
    rw [owed, Option.elim_some, h p]
    rfl

/-- **In every interleaving of orderly calls** the pipe holds one byte or none as the flag says whenever no call is in
progress, it never holds more than two bytes, and after a completed `notify` it is not empty or a `consume` with a later
exchange has run. -/
theorem no_notification_lost (actions : List Action) (ho : Meets step Orderly init actions) (s : Sys)
    (hrun : run step init actions = some s) :
    (s.quiet → s.pipe = if s.mActive then 1 else 0) ∧ s.pipe ≤ 2 ∧
      ∀ pos ∈ s.notified, s.pipe ≠ 0 ∨ ∃ j ∈ s.consumed, pos < j := by
  have h := run_inv_meets Inv (fun _ _ _ hi hq hs => inv_step hi hq hs) actions init s ho inv_init hrun
  have hbytes := h.bytes
  have hactive := h.active
  refine ⟨fun hquiet => ?_, ?_, fun pos hpos => ?_⟩
  · rw [owed_quiet hquiet.1, hquiet.2] at hbytes
    cases ha : s.mActive with
    | false => rwa [ha] at hbytes
    | true => rwa [ha] at hbytes
  · have hdue : s.consumer.due ≤ 1 := by cases s.consumer <;> first | exact Nat.zero_le 1 | exact Nat.le_refl 1
    have := Bool.toNat_le s.mActive
    omega
  · obtain ⟨-, ⟨j, hj, hjc | hjc⟩ | ⟨ha, howed⟩⟩ := h.notified pos hpos
    · exact .inr ⟨j, hjc, hj⟩
    · -- the consumer has not read the byte yet
      rw [hjc] at hbytes
      have : s.pipe + owed s.mMutex s.notifiers = s.mActive.toNat + 1 := hbytes
      exact .inl (by omega)
    · rw [ha, howed] at hbytes
      have : s.pipe + 0 = 1 + s.consumer.due := hbytes
      exact .inl (by omega)

/-- A thread that finds the flag set leaves the byte of the other one; the consumer reads it before a third notification
writes its own. -/
theorem no_notification_lost_three : ∃ s, run step init [.notify 0, .notifier 0, .notifier 0, .write 0 .one, .notify 1,
      .notifier 0, .notifier 1, .notifier 1, .notifier 1, .consume, .consumer, .notify 2, .notifier 2, .notifier 2,
      .write 2 .one, .notifier 2] = some s ∧
    s.pipe = 2 ∧ (s.pipe ≠ 0 ∨ ∃ j ∈ s.consumed, 0 < j) :=
  ⟨_, rfl, rfl, (no_notification_lost [.notify 0, .notifier 0, .notifier 0, .write 0 .one, .notify 1, .notifier 0,
    .notifier 1, .notifier 1, .notifier 1, .consume, .consumer, .notify 2, .notifier 2, .notifier 2, .write 2 .one,
    .notifier 2] (by decide) _ rfl).2.2 0 (by decide)⟩

end EventFd
end Fzx
