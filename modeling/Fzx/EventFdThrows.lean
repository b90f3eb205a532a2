import Fzx.EventFd
/-!
# EventFdThrows — notifications whose writes fail (helper/eventfd.cpp)

`notify` sets the flag before it writes, and when it gives up, after a fatal error or the fifth attempt, it throws and
leaves the flag as it is.  With no byte in the pipe each later notification finds the flag set and writes nothing either.
`consume` may be called at any time here, also with nothing to read.
-/
namespace Fzx

open Lib

namespace EventFd

/-- The write ends the attempts without success. -/
def givesUp : NotifyPc → WriteResult → Bool
  | .write _ _, .fatal => true
  | .write i _, .zero | .write i _, .again => 5 ≤ i + 1
  | _, _ => false

/-- A notification that gives up leaves a byte in the pipe for the flag, if it is set, and one for a `consume` that has
reset the flag and not read yet. -/
def Covered (s : Sys) : Action → Prop
  | .write p r => givesUp (s.notifiers p) r = true → s.mActive.toNat + s.consumer.due ≤ s.pipe
  | .notify _ | .notifier _ | .consume | .consumer => True

/-- No write fails. -/
def Succeeds : Action → Prop
  | .write _ r => r = .one
  | .notify _ | .notifier _ | .consume | .consumer => True

/-- **Able to signal**: a notification that finds the pipe empty goes on to write, and with no call in progress there is a
byte in the pipe if the flag is set. -/
def Able (s : Sys) : Prop :=
  (∀ p, s.notifiers p = .exchange → s.pipe = 0 →
    ∃ s' pos, step s (.notifier p) = some s' ∧ s'.notifiers p = .write 0 pos) ∧
  (s.quiet → s.mActive = true → 1 ≤ s.pipe)

/-! ## The invariant -/

structure Kept (s : Sys) : Prop where
  mutex : ∀ p, (s.notifiers p).holds = true ↔ s.mMutex = some p
  bytes : s.mActive.toNat + s.consumer.due ≤ s.pipe + owed s.mMutex s.notifiers

theorem kept_init : Kept init := ⟨fun _ => ⟨nofun, nofun⟩, Nat.zero_le _⟩

variable {s s' : Sys} {p : ℕ} {pc : NotifyPc}

/-- A step of the thread `p`, which owes `n` bytes after it. -/
theorem kept_update (h : Kept s) {n : ℕ} (hs : s'.notifiers = Function.update s.notifiers p pc)
    (hp : pc.holds = true ↔ s'.mMutex = some p) (hq : ∀ q, q ≠ p → (s'.mMutex = some q ↔ s.mMutex = some q))
    (howed : owed s'.mMutex s'.notifiers = n) (hbytes : s'.mActive.toNat + s'.consumer.due ≤ s'.pipe + n) : Kept s' where
  mutex := mutex_update h.mutex hs hp hq
  bytes := by rwa [howed]

theorem kept_notifierStep (h : Kept s) (hs : notifierStep s p = some s') : Kept s' := by
  have hbytes := h.bytes
  rcases notifierStep_cases hs with ⟨hpc, hm, rfl⟩ | ⟨hpc, ha, rfl⟩ | ⟨hpc, ha, rfl⟩ | ⟨pos, thrown, hpc, rfl⟩
  · have howed : owed s.mMutex s.notifiers = 0 := by rw [hm]; rfl
    rw [howed] at hbytes
    refine kept_update h rfl ⟨fun _ => rfl, fun _ => rfl⟩ (fun q hqp => ?_) (owed_update _ _ _) hbytes
    rw [hm]
    exact ⟨fun he => absurd (Option.some.inj he).symm hqp, nofun⟩
  · -- the flag gets set, for the byte that is owed from now on
    obtain ⟨hm, howed⟩ := eq_mutex h.mutex hpc rfl
    rw [howed, ha] at hbytes
    have howed : owed s.mMutex (Function.update s.notifiers p (.write 0 s.exchanges)) = 1 := by
      rw [hm, owed_update]
      rfl
    refine kept_update h rfl ⟨fun _ => hm, fun _ => rfl⟩ (fun _ _ => Iff.rfl) howed ?_
    have : 0 + s.consumer.due ≤ s.pipe := hbytes
    show 1 + s.consumer.due ≤ s.pipe + 1
    omega
  · obtain ⟨hm, howed⟩ := eq_mutex h.mutex hpc rfl
    rw [howed, ha] at hbytes
    have howed : owed s.mMutex (Function.update s.notifiers p (.unlock s.exchanges false)) = 0 := by
      rw [hm, owed_update]
      rfl
    exact kept_update h rfl ⟨fun _ => hm, fun _ => rfl⟩ (fun _ _ => Iff.rfl) howed hbytes
  · obtain ⟨hm, howed⟩ := eq_mutex h.mutex hpc rfl
    rw [howed] at hbytes
    refine kept_update h rfl ⟨nofun, nofun⟩ (fun q hqp => ?_) rfl hbytes
    rw [hm]
    exact ⟨nofun, fun he => absurd (Option.some.inj he).symm hqp⟩

theorem nextAttempt_of_givesUp {i pos : ℕ} {r : WriteResult} (h : givesUp (.write i pos) r = true) :
    r ≠ .one ∧ nextAttempt i pos r = .unlock pos true := by
  cases r with
  | one => cases h
  | zero => exact ⟨nofun, if_neg (Nat.not_lt_of_le (of_decide_eq_true h))⟩
  | again => exact ⟨nofun, if_neg (Nat.not_lt_of_le (of_decide_eq_true h))⟩
  | fatal => exact ⟨nofun, rfl⟩

theorem nextAttempt_of_not_givesUp {i pos : ℕ} {r : WriteResult} (hr : r ≠ .one) (h : givesUp (.write i pos) r = false) :
    nextAttempt i pos r = .write (i + 1) pos := by
  cases r with
  | one => exact absurd rfl hr
  | zero => exact if_pos (Nat.lt_of_not_le (of_decide_eq_false h))
  | again => exact if_pos (Nat.lt_of_not_le (of_decide_eq_false h))
  | fatal => cases h

/-- **A write that is covered**: the byte owed is in the pipe, is still owed, or is not needed. -/
theorem kept_writeStep {r : WriteResult} (h : Kept s) (hc : Covered s (.write p r)) (hs : writeStep s p r = some s') :
    Kept s' := by
  obtain ⟨i, pos, hpc, rfl⟩ := writeStep_cases hs
  obtain ⟨hm, howed⟩ := eq_mutex h.mutex hpc rfl
  have hbytes := h.bytes
  rw [howed] at hbytes
  have hbytes : s.mActive.toNat + s.consumer.due ≤ s.pipe + 1 := hbytes
  rw [Covered, hpc] at hc
  -- `n` bytes are owed after the write, by the thread that stays in the loop or by nobody
  have hnext : ∀ (n pipe : ℕ) (pc : NotifyPc), pc.holds = true → pc.owed = n →
      s.mActive.toNat + s.consumer.due ≤ pipe + n →
      Kept { s with pipe := pipe, notifiers := Function.update s.notifiers p pc } := by
    intro n pipe pc hh hn hle
    refine kept_update h (n := n) rfl ⟨fun _ => hm, fun _ => hh⟩ (fun _ _ => Iff.rfl) ?_ hle
    dsimp only
    rw [hm, owed_update, hn]
  by_cases hr : r = .one
  · subst hr
    exact hnext 0 (s.pipe + 1) _ rfl rfl hbytes
  · rw [if_neg hr]
    cases hg : givesUp (.write i pos) r with
    | true =>
      rw [(nextAttempt_of_givesUp hg).2]
      exact hnext 0 s.pipe _ rfl rfl (hc hg)
    | false =>
      rw [nextAttempt_of_not_givesUp hr hg]
      exact hnext 1 s.pipe _ rfl rfl hbytes

theorem kept_consumer (h : Kept s) (hn : s'.notifiers = s.notifiers) (hm : s'.mMutex = s.mMutex)
    (hbytes : s'.mActive.toNat + s'.consumer.due ≤ s'.pipe + owed s.mMutex s.notifiers) : Kept s' where
  mutex := by rw [hn, hm]; exact h.mutex
  bytes := by rw [hn, hm]; exact hbytes

theorem owed_le_one (mMutex : Option ℕ) (notifiers : ℕ → NotifyPc) : owed mMutex notifiers ≤ 1 := by
  have hle : ∀ pc : NotifyPc, pc.owed ≤ 1 := fun pc => by
    cases pc <;> first | exact Nat.zero_le 1 | exact Nat.le_refl 1
  cases mMutex with
  | none => exact Nat.zero_le 1
  | some p => exact hle _

/-- The consumer takes a byte that is there for it; when the pipe is empty, the flag is not set. -/
theorem kept_consumerStep (h : Kept s) (hs : consumerStep s = some s') : Kept s' := by
  have hbytes := h.bytes
  rcases consumerStep_cases hs with ⟨hpc, ha, rfl⟩ | ⟨hpc, ha, rfl⟩ | ⟨pos, hpc, rfl⟩
  · rw [hpc, ha] at hbytes
    refine kept_consumer h rfl rfl ?_
    show 0 + 1 ≤ s.pipe + owed s.mMutex s.notifiers
    have : 1 + 0 ≤ s.pipe + owed s.mMutex s.notifiers := hbytes
    omega
  · rw [hpc] at hbytes
    exact kept_consumer h rfl rfl hbytes
  · rw [hpc] at hbytes
    have hbytes : s.mActive.toNat + 1 ≤ s.pipe + owed s.mMutex s.notifiers := hbytes
    have hle := owed_le_one s.mMutex s.notifiers
    refine kept_consumer h rfl rfl ?_
    show s.mActive.toNat + 0 ≤ s.pipe - 1 + owed s.mMutex s.notifiers
    omega

/-- **Every covered step keeps the invariant.** -/
theorem kept_step {a : Action} (h : Kept s) (hc : Covered s a) (hs : step s a = some s') : Kept s' := by
  cases a with
  | notify p =>
    obtain ⟨hpc, rfl⟩ := notify_cases hs
    have hm := ne_mutex h.mutex hpc rfl
    have hlock : NotifyPc.lock.holds = true ↔ s.mMutex = some p :=
      ⟨fun he => absurd he Bool.false_ne_true, fun he => absurd he hm⟩
    exact kept_update h rfl hlock (fun _ _ => Iff.rfl) (owed_update_of_ne hm _ _) h.bytes
  | notifier p => exact kept_notifierStep h hs
  | write p r => exact kept_writeStep h hc hs
  | consume =>
    obtain ⟨hpc, rfl⟩ := consume_cases hs
    have hbytes := h.bytes
    rw [hpc] at hbytes
    exact kept_consumer h rfl rfl hbytes
  | consumer => exact kept_consumerStep h hs

theorem covered_of_succeeds {a : Action} (h : Succeeds a) : Covered s a := by
  cases a with
  | write p r =>
    cases (h : r = .one)
    intro hg
    cases hpc : s.notifiers p <;> rw [hpc] at hg <;> cases hg
  | _ => trivial

/-- **What the invariant promises.** -/
theorem Kept.able (h : Kept s) : Able s := by
  have hbytes := h.bytes
  refine ⟨fun p hpc hpipe => ?_, fun hquiet ha => ?_⟩
  · rw [(eq_mutex h.mutex hpc rfl).2, hpipe] at hbytes
    have hbytes : s.mActive.toNat + s.consumer.due ≤ 0 + 0 := hbytes
    have ha : s.mActive = false := by
      cases ha : s.mActive with
      | false => rfl
      | true =>
        rw [ha] at hbytes
        have : 1 + s.consumer.due ≤ 0 + 0 := hbytes
        omega
    refine ⟨{ s with mActive := true, notifiers := Function.update s.notifiers p (.write 0 s.exchanges)
                     exchanges := s.exchanges + 1 }, s.exchanges, ?_, Function.update_self _ _ _⟩
    simp only [step, notifierStep, hpc, ha, Bool.false_eq_true, if_false]
  · rw [owed_quiet hquiet.1, hquiet.2, ha] at hbytes
    exact hbytes

/-! ## A write that is not covered -/

/-- Calls of which no write fails can leave the flag without a byte for it. -/
def Doomed (s : Sys) : Prop := ∃ ext u, (∀ a ∈ ext, Succeeds a) ∧ run step s ext = some u ∧ ¬ Able u

theorem Doomed.of_step {a : Action} (ha : Succeeds a) (hs : step s a = some s') (h : Doomed s') : Doomed s := by
  obtain ⟨ext, u, hext, hrun, hu⟩ := h
  refine ⟨a :: ext, u, fun b hb => ?_, run_cons_eq_some.2 ⟨s', hs, hrun⟩, hu⟩
  rcases List.mem_cons.1 hb with rfl | hb
  · exact ha
  · exact hext b hb

/-- A notification that finds the flag set and the pipe empty returns. -/
theorem doomed_exchange (hpc : s.notifiers p = .exchange) (ha : s.mActive = true) (hpipe : s.pipe = 0) : Doomed s := by
  refine ⟨[], s, nofun, rfl, fun hable => ?_⟩
  obtain ⟨s', pos, hs, hw⟩ := hable.1 p hpc hpipe
  simp only [step, notifierStep, hpc, ha, if_true] at hs
  rw [← Option.some.inj hs] at hw
  dsimp only at hw
  rw [Function.update_self] at hw
  cases hw

/-- A thread that is idle gets to the flag when nobody has the mutex. -/
theorem Doomed.of_call (hpc : s.notifiers p = .idle) (hm : s.mMutex = none)
    (h : Doomed { s with mMutex := some p, notifiers := Function.update s.notifiers p .exchange }) : Doomed s := by
  have hnotify : step s (.notify p) = some { s with notifiers := Function.update s.notifiers p .lock } := if_pos hpc
  have hlock : step { s with notifiers := Function.update s.notifiers p .lock } (.notifier p) =
      some { s with mMutex := some p, notifiers := Function.update s.notifiers p .exchange } := by
    simp only [step, notifierStep, Function.update_self, hm, if_true, Function.update_idem]
  exact .of_step (a := .notify p) trivial hnotify (.of_step (a := .notifier p) trivial hlock h)

/-- The thread that has the mutex ends its call and calls again. -/
theorem Doomed.of_unlock {pos : ℕ} {thrown : Bool} (hpc : s.notifiers p = .unlock pos thrown)
    (h : Doomed { s with mMutex := some p, notifiers := Function.update s.notifiers p .exchange
                         notified := if thrown then s.notified else s.notified ++ [pos] }) : Doomed s := by
  have hunlock : step s (.notifier p) = some { s with
      mMutex := none
      notifiers := Function.update s.notifiers p .idle
      notified := if thrown then s.notified else s.notified ++ [pos] } := by
    simp only [step, notifierStep, hpc]
  refine .of_step (a := .notifier p) trivial hunlock (.of_call (Function.update_self p _ _) rfl ?_)
  rw [Function.update_idem]
  exact h

/-- There is no byte for the flag. -/
theorem doomed_unlock {pos : ℕ} {thrown : Bool} (hpc : s.notifiers p = .unlock pos thrown) (ha : s.mActive = true)
    (hpipe : s.pipe = 0) : Doomed s := .of_unlock hpc (doomed_exchange (Function.update_self p _ _) ha hpipe)

/-- There is none for the flag after the consumer has read. -/
theorem doomed_read {pos k : ℕ} {thrown : Bool} (hpc : s.notifiers p = .unlock pos thrown) (hc : s.consumer = .read k)
    (ha : s.mActive = true) (hpipe : s.pipe ≤ 1) : Doomed s := by
  have hread : step s .consumer =
      some { s with pipe := s.pipe - 1, consumer := .idle, consumed := s.consumed ++ [k] } := by
    simp only [step, consumerStep, hc]
  exact .of_step (a := .consumer) trivial hread (doomed_unlock hpc ha (Nat.sub_eq_zero_of_le hpipe))

/-- There is none for the consumer, which takes the next notification's. -/
theorem doomed_due {pos k : ℕ} {thrown : Bool} (hpc : s.notifiers p = .unlock pos thrown) (hc : s.consumer = .read k)
    (ha : s.mActive = false) (hpipe : s.pipe = 0) : Doomed s := by
  refine .of_unlock hpc ?_
  generalize hn : (if thrown then s.notified else s.notified ++ [pos]) = notified
  have hset : step { s with mMutex := some p, notifiers := Function.update s.notifiers p .exchange
                            notified := notified } (.notifier p) =
      some { s with mActive := true, mMutex := some p, notified := notified
                    notifiers := Function.update s.notifiers p (.write 0 s.exchanges)
                    exchanges := s.exchanges + 1 } := by
    simp only [step, notifierStep, Function.update_self, ha, Bool.false_eq_true, if_false, Function.update_idem]
  have hwrite : step { s with mActive := true, mMutex := some p, notified := notified
                              notifiers := Function.update s.notifiers p (.write 0 s.exchanges)
                              exchanges := s.exchanges + 1 } (.write p .one) =
      some { s with mActive := true, mMutex := some p, notified := notified, pipe := s.pipe + 1
                    notifiers := Function.update s.notifiers p (.unlock s.exchanges false)
                    exchanges := s.exchanges + 1 } := by
    simp only [step, writeStep, Function.update_self, nextAttempt, if_true, Function.update_idem]
  refine .of_step (a := .notifier p) trivial hset (.of_step (a := .write p .one) rfl hwrite ?_)
  refine doomed_read (Function.update_self p _ _) hc rfl ?_
  dsimp only
  omega

theorem due_cases (pc : ConsumePc) : pc.due = 0 ∨ ∃ k, pc = .read k := by
  cases pc with
  | read k => exact .inr ⟨k, rfl⟩
  | _ => exact .inl rfl

/-- A call that has thrown, with fewer bytes in the pipe than are needed. -/
theorem doomed_of_lt {pos : ℕ} {thrown : Bool} (hpc : s.notifiers p = .unlock pos thrown)
    (hlt : s.pipe < s.mActive.toNat + s.consumer.due) : Doomed s := by
  rcases due_cases s.consumer with hd | ⟨k, hk⟩
  · rw [hd] at hlt
    cases ha : s.mActive with
    | true =>
      rw [ha] at hlt
      exact doomed_unlock hpc ha (Nat.lt_one_iff.1 hlt)
    | false =>
      rw [ha] at hlt
      exact absurd hlt (Nat.not_lt_zero _)
  · rw [hk] at hlt
    cases ha : s.mActive with
    | true =>
      rw [ha] at hlt
      exact doomed_read hpc hk ha (Nat.le_of_lt_succ hlt)
    | false =>
      rw [ha] at hlt
      exact doomed_due hpc hk ha (Nat.lt_one_iff.1 hlt)

/-- **A write that is not covered** leaves fewer bytes than are needed. -/
theorem doomed_of_not_covered {a : Action} (hs : step s a = some s') (hc : ¬ Covered s a) : Doomed s' := by
  cases a with
  | write p r =>
    obtain ⟨hg, hlt⟩ := Classical.not_imp.1 hc
    cases hpc : s.notifiers p with
    | write i pos =>
      rw [hpc] at hg
      obtain ⟨hr, he⟩ := nextAttempt_of_givesUp hg
      simp only [step, writeStep, hpc, he, if_neg hr] at hs
      rw [← Option.some.inj hs]
      exact doomed_of_lt (Function.update_self p _ _) (Nat.lt_of_not_le hlt)
    | _ => rw [hpc] at hg; cases hg
  | _ => exact absurd trivial hc

/-! ## Every interleaving -/

/-- **A failed notification leaves the rest able to signal**, now and after any calls of which no write fails, in every
state of a run exactly when each write that makes a call of `notify` give up comes with the bytes in the pipe that the
flag and the consumer need. -/
theorem able_iff (actions : List Action) :
    (∀ pre t, pre <+: actions → run step init pre = some t →
      ∀ ext u, (∀ a ∈ ext, Succeeds a) → run step t ext = some u → Able u) ↔ Meets step Covered init actions := by
  refine meets_iff (G := fun t => ∀ ext u, (∀ a ∈ ext, Succeeds a) → run step t ext = some u → Able u)
    (fun s h ext u hext hrun => ?_) (fun s a t => kept_step) (fun s a t _ hs hG => ?_) actions init kept_init
  · exact (run_inv_on Succeeds Kept (fun s a s' ha h hs => kept_step h (covered_of_succeeds ha) hs) ext s u hext h
      hrun).able
  · by_contra hc
    obtain ⟨ext, u, hext, hrun, hu⟩ := doomed_of_not_covered hs hc
    exact hu (hG ext u hext hrun)

/-- A fatal error on the first write: the flag stays set over an empty pipe, and the same thread's next call, which
reports the error, finds it set and returns. -/
theorem notify_suppressed :
    (∃ s, run step init [.notify 0, .notifier 0, .notifier 0, .write 0 .fatal, .notifier 0] = some s ∧
      s.quiet ∧ s.mActive = true ∧ s.pipe = 0 ∧ ¬ Able s) ∧
    ∃ t u, run step init [.notify 0, .notifier 0, .notifier 0, .write 0 .fatal, .notifier 0, .notify 0, .notifier 0] =
        some t ∧ t.notifiers 0 = .exchange ∧ t.pipe = 0 ∧
      step t (.notifier 0) = some u ∧ u.notifiers 0 = .unlock 1 false := by
  refine ⟨?_, _, _, rfl, rfl, rfl, rfl, rfl⟩
  have hs : ∃ s, run step init [.notify 0, .notifier 0, .notifier 0, .write 0 .fatal, .notifier 0] = some s ∧
      s.quiet ∧ s.mActive = true ∧ s.pipe = 0 := by
    refine ⟨_, rfl, ⟨fun p => ?_, rfl⟩, rfl, rfl⟩
    cases p with
    | zero => rfl
    | succ p => rfl
  obtain ⟨s, hrun, hquiet, ha, hpipe⟩ := hs
  refine ⟨s, hrun, hquiet, ha, hpipe, fun hable => ?_⟩
  have := hable.2 hquiet ha
  omega

end EventFd
end Fzx
