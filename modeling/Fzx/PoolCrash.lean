import Fzx.PoolRest
/-!
# PoolCrash — a worker throws (worker.cpp)

The body of `Worker::run` is a `try` block: an exception, wherever the worker is, sets `mError` and ends the thread.  The
others go on and never hear of it.  To them the worker is one that is never scheduled again: a pool with dead workers is
a pool of which some workers look stopped (`Pool.kill`), and makes the same steps.  So what is shown as up to date is
right also then (`crash_upToDate`), and `stop` still returns (`crash_stop_returns`).
-/
namespace Fzx

open Lib

/-- A pool with the flags of its workers. -/
structure Crashing where
  pool : Pool
  mError : ℕ → Bool

namespace Crashing

inductive Action where
  | act (a : Pool.Action)
  | throw (w : ℕ)

def init (hardwareConcurrency : ℕ) : Crashing := { pool := Pool.init hardwareConcurrency, mError := fun _ => false }

/-- `start` makes new workers, if they do not run. -/
def errors (s : Crashing) : Pool.Action → ℕ → Bool
  | .call .start => if s.pool.main.mRunning then s.mError else fun _ => false
  | _ => s.mError

/-- What else a thread leaves as it was, or half changed, is its own and nobody reads it. -/
def step (b : Build) (s : Crashing) : Action → Option Crashing
  | .act a => (s.pool.step b a).map (fun pool => { pool, mError := s.errors a })
  | .throw w =>
    if w < s.pool.main.mWorkersSize ∧ (s.pool.workers w).pc ≠ .stopped then
      some { pool := s.pool.setWorker w ((s.pool.workers w).goto .stopped), mError := Function.update s.mError w true }
    else none

def Action.NulFree : Action → Prop
  | .act a => a.NulFree
  | .throw _ => True

/-- A step of a thread, or its end. -/
def Action.Internal : Action → Prop
  | .act a => a.Internal
  | .throw _ => True

theorem Action.Internal.nulFree {a : Action} (h : a.Internal) : a.NulFree := by
  cases a with
  | act a => exact Pool.Action.Internal.nulFree h
  | throw w => trivial

/-- A step of a thread that does not throw. -/
def Action.Goes : Action → Prop
  | .act a => a.Internal
  | .throw _ => False

end Crashing

/-! ## stop returns -/

theorem Crashing.step_act {b : Build} {s s' : Crashing} {a : Pool.Action} (h : s.step b (.act a) = some s') :
    s.pool.step b a = some s'.pool ∧ s'.mError = s.errors a := by
  obtain ⟨pool, hp, rfl⟩ := Option.map_eq_some_iff.1 h
  exact ⟨hp, rfl⟩

theorem Crashing.step_throw {b : Build} {s s' : Crashing} {w : ℕ} (h : s.step b (.throw w) = some s') :
    w < s.pool.main.mWorkersSize ∧ (s.pool.workers w).pc ≠ .stopped ∧
      s' = { pool := s.pool.setWorker w ((s.pool.workers w).goto .stopped), mError := Function.update s.mError w true } := by
  simp only [Crashing.step] at h
  split at h
  · rename_i hw
    exact ⟨hw.1, hw.2, (Option.some.inj h).symm⟩
  · cases h

/-- The workers whose flag is set. -/
def Crashing.Dead (s : Crashing) (w : ℕ) : Prop := s.mError w = true

/-- A thread that ended is at most one more that was stopped. -/
theorem RunOk.throw {s : Pool} (h : RunOk s) (w : ℕ) : RunOk (s.setWorker w ((s.workers w).goto .stopped)) := by
  have hw : ∀ u, StampOk s.main ((s.setWorker w ((s.workers w).goto .stopped)).workers u) := by
    intro u
    by_cases hu : u = w
    · subst hu
      rw [setWorker_self]
      exact (h.stamp u).goto nofun nofun
    · rw [setWorker_other hu]
      exact h.stamp u
  refine ⟨h.jobs, h.threads, h.size, h.stopping, h.joining, hw, fun u hu => ?_⟩
  by_cases he : u = w
  · subst he
    rw [setWorker_self] at hu
    exact hu.elim
  · rw [setWorker_other he] at hu ⊢
    exact h.query u hu

theorem QuietOk.throw {D : ℕ → Prop} {s : Pool} (h : QuietOk D s) {w : ℕ} {D' : ℕ → Prop} (hD : ∀ u, D' u ↔ u = w ∨ D u) :
    QuietOk D' (s.setWorker w ((s.workers w).goto .stopped)) := by
  have hkeep : ∀ {P : Worker → Prop} (u : ℕ), P ((s.workers w).goto .stopped) → P (s.workers u) →
      P ((s.setWorker w ((s.workers w).goto .stopped)).workers u) := by
    intro P u hw hu
    by_cases he : u = w
    · subst he
      rwa [setWorker_self]
    · rwa [setWorker_other he]
  have hhalts : ((s.workers w).goto .stopped).Halts := .inr rfl
  refine ⟨⟨h.rest.ok.throw w, fun u => hkeep (P := fun W => W.mergeState.size ≤ 6) u (h.rest.children w) (h.rest.children u)⟩,
    h.queries, ⟨fun hr u hu => ?_, fun k hk u hu => ?_, fun k hk u hu => ?_, fun k hk u hu => ?_, h.stop.gone⟩⟩
  · rw [hD, not_or] at hu
    rw [setWorker_other hu.1]
    exact h.stop.runs hr u hu.2
  · exact hkeep u hhalts (h.stop.stopping k hk u hu)
  · exact hkeep u hhalts (h.stop.joining k hk u hu)
  · exact hkeep (P := fun W => W.pc = .stopped) u rfl (h.stop.joined k hk u hu)

theorem StopOk.of_start {D : ℕ → Prop} {s : Pool} (hpc : s.main.pc = .idle) (hr : s.main.mRunning = false) :
    StopOk D s.start := by
  unfold Pool.start
  rw [hr, if_neg Bool.false_ne_true]
  refine ⟨fun _ _ _ => ⟨rfl, trivial⟩, fun k hk => ?_, fun k hk => ?_, fun k hk => ?_, nofun⟩ <;>
    cases hpc.symm.trans hk

theorem QuietOk.crashStep {b : Build} {s s' : Crashing} {a : Crashing.Action} (h : QuietOk s.Dead s.pool) (ha : a.NulFree)
    (hs : s.step b a = some s') : QuietOk s'.Dead s'.pool := by
  cases a with
  | throw w =>
    obtain ⟨-, -, rfl⟩ := Crashing.step_throw hs
    refine h.throw (fun u => ?_)
    unfold Crashing.Dead
    by_cases hu : u = w
    · subst hu
      simp
    · simp [hu]
  | act a =>
    obtain ⟨hp, he⟩ := Crashing.step_act hs
    have hstep := h.step ha hp
    unfold Crashing.Dead
    rw [he]
    unfold Crashing.errors
    split
    · by_cases hr : s.pool.main.mRunning = true
      · rw [if_pos hr]
        exact hstep
      · rw [if_neg hr]
        refine ⟨hstep.rest, hstep.queries, ?_⟩
        unfold Pool.step at hp
        simp only at hp
        split at hp
        · rename_i hpc
          rw [← Option.some.inj hp]
          exact .of_start hpc (Bool.eq_false_iff.2 hr)
        · cases hp
    · exact hstep

/-! ### The work -/

/-- The threads that have not ended. -/
def Pool.alive (s : Pool) : ℕ :=
  ∑ w ∈ Finset.range s.main.mWorkersSize, if (s.workers w).pc = .stopped then 0 else 1

/-- A step between calls leaves a thread that has ended alone, and keeps the workers or, at the end of `stop`, drops them. -/
theorem internal_stopped {b : Build} {s s' : Pool} {a : Pool.Action} (hn : s.main.mWorkersSize ≤ 64) (ha : a.Internal)
    (hs : s.step b a = some s') : (s'.main.mWorkersSize = s.main.mWorkersSize ∨ s'.main.mWorkersSize = 0) ∧
      ∀ w, (s.workers w).pc = .stopped → (s'.workers w).pc = .stopped := by
  unfold Pool.step at hs
  cases a with
  | call c => exact ha.elim
  | main =>
    rcases mainStep_cases hs with ⟨k, _, _, rfl⟩ | ⟨k, _, rfl⟩ | hstop
    · exact ⟨.inl rfl, fun w hw => ((touched_setWorker .job w).pc).trans hw⟩
    · exact ⟨.inl rfl, fun _ hw => hw⟩
    · cases hstop with
      | @post k _ _ =>
        refine ⟨.inl rfl, fun w hw => ?_⟩
        change ((s.setWorker k _).workers w).pc = _
        by_cases he : w = k
        · subst he
          rw [setWorker_self]
          exact hw
        · rwa [setWorker_other he]
      | posted _ _ => exact ⟨.inl rfl, fun _ hw => hw⟩
      | join _ _ _ => exact ⟨.inl rfl, fun _ hw => hw⟩
      | joined _ _ => exact ⟨.inr rfl, fun _ hw => hw⟩
  | worker w back =>
    simp only at hs
    split at hs
    · rename_i hw
      have hstep := workerStep_cases (hw.trans_le hn) hs
      exact ⟨.inl (by rw [hstep.main]), fun u hu => hstep.stopped hu⟩
    · cases hs

theorem alive_le {b : Build} {s s' : Pool} {a : Pool.Action} (hn : s.main.mWorkersSize ≤ 64) (ha : a.Internal)
    (hs : s.step b a = some s') : s'.alive ≤ s.alive := by
  obtain ⟨hsize, hstopped⟩ := internal_stopped hn ha hs
  unfold Pool.alive
  rcases hsize with he | he
  · rw [he]
    refine Finset.sum_le_sum (fun w _ => ?_)
    by_cases hw : (s.workers w).pc = .stopped
    · rw [if_pos hw, if_pos (hstopped w hw)]
    · rw [if_neg hw]
      split
      · exact Nat.zero_le 1
      · exact le_rfl
  · rw [he, Finset.range_zero, Finset.sum_empty]
    exact Nat.zero_le _

/-- A throw ends what the worker had to do. -/
theorem work_throw_le (s : Pool) (w : ℕ) : (s.setWorker w ((s.workers w).goto .stopped)).work ≤ s.work := by
  refine Nat.add_le_add_left (Finset.sum_le_sum (fun u _ => ?_)) _
  by_cases hu : u = w
  · subst hu
    rw [setWorker_self]
    have he := work_goto (s := s) (W := s.workers u) .stopped
    change ((s.workers u).goto .stopped).work s ≤ _
    simp only [WorkerPc.work] at he
    omega
  · rw [setWorker_other hu]
    exact le_rfl

theorem alive_throw_lt {s : Pool} {w : ℕ} (hw : w < s.main.mWorkersSize) (hpc : (s.workers w).pc ≠ .stopped) :
    (s.setWorker w ((s.workers w).goto .stopped)).alive < s.alive := by
  have hgoto : ((s.workers w).goto .stopped).pc = .stopped := rfl
  refine Finset.sum_lt_sum (fun u _ => ?_) ⟨w, Finset.mem_range.2 hw, ?_⟩
  · by_cases hu : u = w
    · subst hu
      rw [setWorker_self, if_pos hgoto]
      exact Nat.zero_le _
    · rw [setWorker_other hu]
  · rw [setWorker_self, if_pos hgoto, if_neg hpc]
    exact Nat.zero_lt_one

theorem crash_work_lt {b : Build} {s s' : Crashing} {a : Crashing.Action} (ha : a.Internal) (h : RestOk s.pool)
    (hs : s.step b a = some s') : s'.pool.work + s'.pool.alive < s.pool.work + s.pool.alive := by
  cases a with
  | act a =>
    have hp := (Crashing.step_act hs).1
    have hlt := h.work_lt ha hp
    have hle := alive_le h.ok.size ha hp
    omega
  | throw w =>
    obtain ⟨hw, hpc, rfl⟩ := Crashing.step_throw hs
    have hle := work_throw_le s.pool w
    have hlt := alive_throw_lt hw hpc
    simp only
    omega

theorem alive_le_size (s : Pool) : s.alive ≤ s.main.mWorkersSize := by
  have hle := Finset.sum_le_card_nsmul (Finset.range s.main.mWorkersSize)
    (fun w => if (s.workers w).pc = .stopped then 0 else 1) 1 (fun w _ => by split <;> omega)
  rwa [Finset.card_range, smul_eq_mul, mul_one] at hle

/-! ### Joining -/

/-- `n` workers are being stopped, or all of them have ended and are gone. -/
def Closing (n : ℕ) (s : Pool) : Prop :=
  s.main.mRunning = false ∧
    (s.main.mWorkersSize = n ∨ (s.main.mWorkersSize = 0 ∧ ∀ w < n, (s.workers w).pc = .stopped))

theorem Closing.step {b : Build} {n : ℕ} {D : ℕ → Prop} {s s' : Pool} {a : Pool.Action} (hq : QuietOk D s)
    (h : Closing n s) (ha : a.Internal) (hs : s.step b a = some s') : Closing n s' := by
  have hrun : s'.main.mRunning = false := by
    rw [internal_main hq.rest.ok.size ha hs]
    exact h.1
  obtain ⟨hsize, hstopped⟩ := internal_stopped hq.rest.ok.size ha hs
  refine ⟨hrun, ?_⟩
  rcases h.2 with hn | ⟨hn, hgone⟩
  · by_cases he : s'.main.mWorkersSize = s.main.mWorkersSize
    · exact .inl (he.trans hn)
    · -- Only the end of the last join changes the number.
      refine .inr ⟨hsize.resolve_left he, fun w hw => hstopped w ?_⟩
      unfold Pool.step at hs
      cases a with
      | call c => exact ha.elim
      | main =>
        rcases mainStep_cases hs with ⟨k, _, _, rfl⟩ | ⟨k, _, rfl⟩ | hstop
        · exact absurd rfl he
        · exact absurd rfl he
        · cases hstop with
          | @joined k hpc hk => exact hq.stop.joined k hpc w (by omega)
          | _ => exact absurd rfl he
      | worker u back =>
        simp only at hs
        split at hs
        · rename_i hu
          exact absurd (by rw [(workerStep_cases (hu.trans_le hq.rest.ok.size) hs).main]) he
        · cases hs
  · exact .inr ⟨by omega, fun w hw => hstopped w (hgone w hw)⟩

theorem Closing.crashStep {b : Build} {n : ℕ} {s s' : Crashing} {a : Crashing.Action} (hq : QuietOk s.Dead s.pool)
    (h : Closing n s.pool) (ha : a.Internal) (hs : s.step b a = some s') : Closing n s'.pool := by
  cases a with
  | act a => exact h.step hq ha (Crashing.step_act hs).1
  | throw w =>
    obtain ⟨_, _, rfl⟩ := Crashing.step_throw hs
    refine ⟨h.1, h.2.imp_right (fun ⟨hn, hgone⟩ => ⟨hn, fun u hu => ?_⟩)⟩
    by_cases he : u = w
    · subst he
      rw [setWorker_self]
      rfl
    · rw [setWorker_other he]
      exact hgone u hu

/-- **`stop` returns, whoever throws**: from every state in it, of every run whose queries have no NUL and in which workers
throw at any time, every schedule is bounded, and one that leaves no thread a step ends with `stop` returned and all its
workers' threads ended. -/
theorem crash_stop_returns (b : Build) (hardwareConcurrency : ℕ) (as bs : List Crashing.Action) (s t : Crashing)
    (hnul : ∀ a ∈ as, a.NulFree) (hrun : run (Crashing.step b) (Crashing.init hardwareConcurrency) as = some s)
    (hstop : s.pool.main.mRunning = false) (hint : ∀ a ∈ bs, a.Internal) (hgo : run (Crashing.step b) s bs = some t) :
    bs.length ≤ s.pool.main.mWorkersSize * (8 * chunks s.pool.main.mItems.length + 120) + 3 ∧
      (Stuck (Crashing.step b) Crashing.Action.Goes t → t.pool.main.pc = .idle ∧ t.pool.main.mWorkersSize = 0 ∧
        ∀ w < s.pool.main.mWorkersSize, (t.pool.workers w).pc = .stopped) := by
  have h : QuietOk s.Dead s.pool := by
    refine run_inv_on _ (fun s : Crashing => QuietOk s.Dead s.pool) (fun _ _ _ ha h hs => h.crashStep ha hs) as _ s hnul ?_
      hrun
    exact quietOk_init _ hardwareConcurrency
  have hstep : ∀ u a v, a.Internal → QuietOk u.Dead u.pool ∧ Closing s.pool.main.mWorkersSize u.pool →
      Crashing.step b u a = some v → QuietOk v.Dead v.pool ∧ Closing s.pool.main.mWorkersSize v.pool :=
    fun _ _ _ ha h hs => ⟨h.1.crashStep ha.nulFree hs, h.2.crashStep h.1 ha hs⟩
  have hlt : ∀ u a v, a.Internal → QuietOk u.Dead u.pool ∧ Closing s.pool.main.mWorkersSize u.pool →
      Crashing.step b u a = some v → v.pool.work + v.pool.alive < u.pool.work + u.pool.alive :=
    fun _ _ _ ha h hs => crash_work_lt ha h.1.rest hs
  have h0 : QuietOk s.Dead s.pool ∧ Closing s.pool.main.mWorkersSize s.pool := ⟨h, hstop, .inl rfl⟩
  have hle := run_length_le hstep hlt bs s t hint h0 hgo
  obtain ⟨ht, hclosing⟩ := run_inv_on _ _ hstep bs s t hint h0 hgo
  constructor
  · have hwork := h.rest.work_le
    have halive := alive_le_size s.pool
    have he : s.pool.main.mWorkersSize * (8 * chunks s.pool.main.mItems.length + 120) =
        s.pool.main.mWorkersSize * (8 * chunks s.pool.main.mItems.length + 119) + s.pool.main.mWorkersSize := by ring
    omega
  · intro hstuck
    have hpool : Stuck (Pool.step b) Pool.Action.Internal t.pool := by
      intro a ha
      have h0 : t.step b (.act a) = none := hstuck (.act a) ha
      exact Option.map_eq_none_iff.1 h0
    have hidle := ht.main_idle hpool
    have hn := ht.stop.gone hclosing.1 (by simp [hidle]) (by simp [hidle])
    refine ⟨hidle, hn, fun w hw => ?_⟩
    rcases hclosing.2 with he | hgone
    · omega
    · exact hgone.2 w hw

/-- Worker 1 throws before it looks at the job, and the pool is stopped. -/
def throwSteps : List Crashing.Action :=
  [.act (.call (.pushItem [97])), .act (.call .start), .act (.call (.setQuery [39, 97])), .act .main, .act .main, .act .main,
    .throw 1, .act (.call .stop)]

def throwStop : List Crashing.Action :=
  [.act .main, .act .main, .act .main, .act (.worker 0 {}), .act (.worker 0 {}), .act .main, .act .main, .act .main]

theorem throwSteps_isSome : (run (Crashing.step .scalar) (Crashing.init 2) throwSteps).isSome = true := by decide +kernel

def thrown : Crashing := (run (Crashing.step .scalar) (Crashing.init 2) throwSteps).get throwSteps_isSome

theorem throwStop_isSome : (run (Crashing.step .scalar) thrown throwStop).isSome = true := by decide +kernel

def thrownStopped : Crashing := (run (Crashing.step .scalar) thrown throwStop).get throwStop_isSome

theorem crash_stop_returns_sample :
    8 ≤ thrown.pool.main.mWorkersSize * (8 * chunks thrown.pool.main.mItems.length + 120) + 3 ∧
    thrownStopped.pool.main.mWorkersSize = 0 ∧ (thrownStopped.pool.workers 1).pc = .stopped := by
  have hnul : ∀ a ∈ throwSteps, a.NulFree := by
    intro a ha
    simp only [throwSteps, List.mem_cons, List.not_mem_nil, or_false] at ha
    rcases ha with rfl | rfl | rfl | rfl | rfl | rfl | rfl | rfl
    iterate 2 trivial
    · exact sampleQuery_nulFree
    all_goals trivial
  have hint : ∀ a ∈ throwStop, a.Internal := by
    intro a ha
    simp only [throwStop, List.mem_cons, List.not_mem_nil, or_false] at ha
    rcases ha with rfl | rfl | rfl | rfl | rfl | rfl | rfl | rfl <;> trivial
  have hn : thrownStopped.pool.main.mWorkersSize = 0 := by decide +kernel
  have hstuck : Stuck (Crashing.step .scalar) Crashing.Action.Goes thrownStopped := by
    intro a ha
    cases a with
    | throw w => exact ha.elim
    | act a =>
      cases a with
      | call c => exact ha.elim
      | main => decide +kernel
      | worker w back => simp [Crashing.step, Pool.step, hn]
  obtain ⟨hlen, hend⟩ := crash_stop_returns .scalar 2 throwSteps throwStop thrown thrownStopped hnul
    (Option.some_get throwSteps_isSome).symm (by decide +kernel) hint (Option.some_get throwStop_isSome).symm
  exact ⟨hlen, (hend hstuck).2.1, (hend hstuck).2.2 1 (by decide +kernel)⟩

/-! ## What is shown -/

/-- A pool some of whose workers look stopped. -/
def Pool.kill (s : Pool) (D : ℕ → Bool) : Pool :=
  { s with workers := fun w => if D w then (s.workers w).goto .stopped else s.workers w }

section

variable {s : Pool} {D : ℕ → Bool} {w : ℕ}

theorem kill_dead (h : D w = true) : (s.kill D).workers w = (s.workers w).goto .stopped := if_pos h

theorem kill_alive (h : D w = false) : (s.kill D).workers w = s.workers w := by
  unfold Pool.kill
  simp only [h, Bool.false_eq_true, if_false]

/-- What is written to a worker that lives. -/
theorem kill_setWorker (h : D w = false) (W : Worker) : (s.kill D).setWorker w W = (s.setWorker w W).kill D := by
  unfold Pool.kill Pool.setWorker
  congr 1
  funext u
  by_cases hu : u = w
  · subst hu
    simp [h]
  · simp [hu]

/-- What is written to a worker whether it lives or not. -/
theorem kill_touch {f : Worker → Worker} (hf : ∀ W, f (W.goto .stopped) = (f W).goto .stopped) :
    (s.kill D).setWorker w (f ((s.kill D).workers w)) = (s.setWorker w (f (s.workers w))).kill D := by
  unfold Pool.kill Pool.setWorker
  congr 1
  funext u
  by_cases hu : u = w
  · subst hu
    by_cases hD : D u = true
    · simp [hD, hf]
    · simp [hD]
  · simp [hu]

theorem kill_readBuffer : ((s.kill D).workers w).mOutput = (s.workers w).mOutput := by
  by_cases hD : D w = true
  · rw [kill_dead hD]
    rfl
  · rw [kill_alive (Bool.eq_false_iff.2 hD)]

/-- One more worker. -/
theorem kill_throw : (s.kill D).setWorker w (((s.kill D).workers w).goto .stopped) = s.kill (Function.update D w true) := by
  unfold Pool.kill Pool.setWorker
  congr 1
  funext u
  by_cases hu : u = w
  · subst hu
    by_cases hD : D u = true <;> simp [hD, Worker.goto]
  · simp [hu]

theorem kill_takeStep (h : D w = false) (p : ℕ) : (s.kill D).takeStep w p = (s.takeStep w p).kill D := by
  unfold Pool.takeStep
  rw [kill_alive h]
  exact kill_setWorker (s := { s with queues := s.taken w p }) h _

/-- **A worker that lives takes the step it would take in a pool where all live.** -/
theorem kill_workerStep (b : Build) (h : D w = false) (back : Results) :
    (s.kill D).workerStep b w back = (s.workerStep b w back).map (fun s => s.kill D) := by
  have hW : (s.kill D).workers w = s.workers w := kill_alive h
  unfold Pool.workerStep
  rw [hW]
  cases hpc : (s.workers w).pc with
  | wait =>
    simp only [hpc]
    split
    · rw [Option.map_some, kill_setWorker h]
    · rfl
  | woken ev =>
    simp only [hpc]
    rw [Option.map_some, kill_setWorker h]
    rfl
  | take =>
    simp only [hpc]
    rw [Option.map_map]
    congr 1
    funext p
    exact kill_takeStep h p
  | chunk start stop =>
    simp only [hpc]
    cases (s.workers w).job.mQuery with
    | none => rfl
    | some q =>
      rw [Option.bind_some, Option.bind_some, Option.map_map]
      congr 1
      funext items
      exact kill_setWorker h _
  | get =>
    simp only [hpc]
    rw [Option.map_some, kill_setWorker h]
  | got ev =>
    simp only [hpc]
    rw [Option.map_some, kill_setWorker h]
    rfl
  | merge i =>
    simp only [hpc]
    split
    · split
      · rw [Option.map_some, kill_setWorker h]
      · rw [Option.map_some, ← kill_setWorker h]
        exact congrArg some (congrArg (fun t : Pool => t.setWorker w ((s.workers w).goto (.merging i)))
          (kill_touch (f := fun W => { W with mOutput := W.mOutput.load }) (fun _ => rfl)))
    · rw [Option.map_some, kill_setWorker h]
  | merging i =>
    simp only [hpc]
    rw [Option.map_some, kill_setWorker h, kill_readBuffer]
  | publish =>
    simp only [hpc]
    split
    · rw [Option.map_some, kill_setWorker h]
    · rw [Option.map_some, kill_setWorker h]
  | notify =>
    simp only [hpc]
    rw [kill_setWorker h]
    split
    · rfl
    · exact congrArg some
        (kill_touch (f := fun W => { W with mEvents := { W.mEvents with kMerge := true } }) (fun _ => rfl))
  | stopped => simp only [hpc, Option.map_none]

theorem kill_mainStep (hs : ∀ k, s.main.pc ≠ .stopping k) (hj : ∀ k, s.main.pc ≠ .joining k) :
    (s.kill D).mainStep = s.mainStep.map (fun s => s.kill D) := by
  have hpc' : (s.kill D).main.pc = s.main.pc := rfl
  unfold Pool.mainStep
  rw [hpc']
  cases hpc : s.main.pc with
  | idle => rfl
  | posting k =>
    have he := kill_touch (s := s) (D := D) (w := k)
      (f := fun W => { W with mEvents := { W.mEvents with kJob := true } }) (fun _ => rfl)
    dsimp only at he ⊢
    change (if k < s.main.mWorkersSize then _ else _) = _
    split
    · rw [he]
      rfl
    · rfl
  | stopping k => exact absurd hpc (hs k)
  | joining k => exact absurd hpc (hj k)

theorem kill_ite {c : Prop} {i j : Decidable c} {t t' u u' : Pool} (ht : t' = t.kill D) (hu : u' = u.kill D) :
    @ite Pool c i t' u' = (@ite Pool c j t u).kill D := by
  by_cases h : c
  · rw [if_pos h, if_pos h, ht]
  · rw [if_neg h, if_neg h, hu]

theorem kill_renewQueue : (s.kill D).renewQueue = s.renewQueue.kill D := kill_ite rfl rfl

theorem kill_commit : (s.kill D).commit = s.commit.kill D := by
  refine kill_ite rfl ?_
  -- The queue is renewed or not, and then the job is set.
  have hset : ∀ (t t' : Pool) (q i k : Bool), t' = t.kill D →
      t'.setJob (Pool.nextJob t'.main q i k) = (t.setJob (Pool.nextJob t.main q i k)).kill D := by
    rintro t t' q i k rfl
    rfl
  exact hset _ _ _ _ _ (kill_ite kill_renewQueue rfl)

theorem kill_setQuery (query : Bytes) : (s.kill D).setQuery query = (s.setQuery query).kill D := by
  refine kill_ite rfl ?_
  have hwith : (s.kill D).withQuery (Query.parse query) = (s.withQuery (Query.parse query)).kill D := kill_ite rfl rfl
  rw [hwith, kill_commit]

/-- A call that neither starts nor stops workers. -/
theorem kill_call (hr : s.main.mRunning = true) {c : Call} (hc : (Pool.Action.call c).NoStop) :
    (s.kill D).call c = (s.call c).kill D := by
  cases c with
  | setThreads threads => rfl
  | start =>
    change (s.kill D).start = s.start.kill D
    unfold Pool.start
    rw [if_pos hr]
    exact if_pos hr
  | stop => exact hc.elim
  | pushItem str =>
    exact kill_ite rfl rfl
  | setQuery query => exact kill_setQuery query
  | commit => exact kill_commit
  | loadResults =>
    exact kill_ite rfl (kill_touch (f := fun W => { W with mOutput := W.mOutput.load }) (fun _ => rfl))

/-- **A step of a pool with dead workers is the step of a pool where they live**, and are not scheduled. -/
theorem kill_step {b : Build} {t : Pool} {a : Pool.Action} (hl : Live s) (ha : a.NoStop)
    (h : (s.kill D).step b a = some t) : ∃ s', s.step b a = some s' ∧ t = s'.kill D := by
  unfold Pool.step at h ⊢
  cases a with
  | call c =>
    simp only at h ⊢
    split at h
    · rename_i hpc
      refine ⟨s.call c, if_pos hpc, ?_⟩
      rw [← kill_call hl.running ha]
      exact (Option.some.inj h).symm
    · cases h
  | main =>
    simp only at h ⊢
    rw [kill_mainStep hl.stopping hl.joining] at h
    obtain ⟨s', hs, rfl⟩ := Option.map_eq_some_iff.1 h
    exact ⟨s', hs, rfl⟩
  | worker w back =>
    simp only at h ⊢
    split at h
    · rename_i hw
      by_cases hD : D w = true
      · unfold Pool.workerStep at h
        rw [kill_dead hD] at h
        simp only [Worker.goto] at h
        cases h
      · rw [kill_workerStep b (Bool.eq_false_iff.2 hD)] at h
        obtain ⟨s', hs, rfl⟩ := Option.map_eq_some_iff.1 h
        exact ⟨s', (if_pos hw).trans hs, rfl⟩
    · cases h

end

/-- What holds of a run in which workers throw: its pool is one of a run in which nobody does, with the dead workers
killed. -/
def Survives (b : Build) (s : Crashing) : Prop :=
  ∃ p : Pool, Live p ∧ ContentInv b p ∧ Queries p.main ∧ s.pool = p.kill s.mError

/-- After `start`: `stop` is not called. -/
def Crashing.Action.NoStop : Crashing.Action → Prop
  | .act a => a.NoStop
  | .throw _ => True

theorem Queries.step {b : Build} {s s' : Pool} {a : Pool.Action} (hl : Live s) (h : Queries s.main)
    (hs : s.step b a = some s') : Queries s'.main := by
  rcases step_call_or_main hl.size hs with ⟨c, _, rfl⟩ | he
  · exact h.call hl.jobs c
  · rw [he]
    exact ⟨h.items, h.addrLt, h.addr⟩

theorem Survives.step {b : Build} {s s' : Crashing} {a : Crashing.Action} (h : Survives b s) (ha : a.NoStop)
    (hs : s.step b a = some s') : Survives b s' := by
  obtain ⟨p, hl, hc, hq, hp⟩ := h
  cases a with
  | throw w =>
    obtain ⟨-, -, rfl⟩ := Crashing.step_throw hs
    refine ⟨p, hl, hc, hq, ?_⟩
    simp only [hp]
    exact kill_throw
  | act a =>
    obtain ⟨hstep, he⟩ := Crashing.step_act hs
    have herr : s'.mError = s.mError := by
      rw [he]
      unfold Crashing.errors
      split
      · have hr : s.pool.main.mRunning = true := by
          rw [hp]
          exact hl.running
        rw [if_pos hr]
      · rfl
    rw [hp] at hstep
    obtain ⟨p', hp', he'⟩ := kill_step hl ha hstep
    have hlive := live_cases hl ha hp'
    exact ⟨p', hlive.live hl, hlive.contentInv hl hc, hq.step hl hp', herr ▸ he'⟩

/-- What is shown does not tell who died. -/
theorem sameShown_kill (s : Pool) (D : ℕ → Bool) : SameShown s (s.kill D) :=
  ⟨rfl, by rw [kill_readBuffer]⟩

/-- Before `start` there is nobody to throw. -/
theorem run_prepares {b : Build} {hardwareConcurrency : ℕ} {pre : List Pool.Action} {s : Crashing}
    (hpre : ∀ a ∈ pre, a.Prepares)
    (hrun : run (Crashing.step b) (Crashing.init hardwareConcurrency) (pre.map .act) = some s) :
    Prepared s.pool ∧ Queries s.pool.main ∧ s.mError = fun _ => false := by
  refine run_inv_on (fun a : Crashing.Action => ∃ c, a = .act c ∧ c.Prepares)
    (fun s : Crashing => Prepared s.pool ∧ Queries s.pool.main ∧ s.mError = fun _ => false) ?_ _ _ s ?_
    ⟨prepared_init hardwareConcurrency, queries_init _, rfl⟩ hrun
  · rintro s _ s' ⟨a, rfl, ha⟩ ⟨hp, hq, he⟩ hs
    obtain ⟨hstep, herr⟩ := Crashing.step_act hs
    refine ⟨hp.step ha hstep, ?_, ?_⟩
    · rcases step_call_or_main (hp.size ▸ Nat.zero_le 64) hstep with ⟨c, _, h⟩ | h
      · rw [h]
        exact hq.call hp.jobs c
      · rw [h]
        exact ⟨hq.items, hq.addrLt, hq.addr⟩
    · rw [herr]
      unfold Crashing.errors
      split
      · exact ha.elim
      · exact he
  · intro a ha
    obtain ⟨c, hc, rfl⟩ := List.mem_map.1 ha
    exact ⟨c, rfl, hpre c hc⟩

theorem kill_none (s : Pool) : s.kill (fun _ => false) = s := rfl

/-- **What is shown as up to date is so, whoever throws**: in every state of every run that starts the workers before the
first commit, and in which any of them throw at any time, where `processing` says false and a query is set, or no results
of a cleared query are loaded. -/
theorem crash_upToDate (b : Build) (hardwareConcurrency : ℕ) (pre : List Pool.Action) (post : List Crashing.Action)
    (s : Crashing) (hpre : ∀ a ∈ pre, a.Prepares) (hpost : ∀ a ∈ post, a.NoStop)
    (hrun : run (Crashing.step b) (Crashing.init hardwareConcurrency) (pre.map .act ++ .act (.call .start) :: post) = some s)
    (hproc : s.pool.processing = false) (hcur : Current b s.pool) : UpToDate b s.pool := by
  obtain ⟨t, ht, hgo⟩ := run_append_eq_some.1 hrun
  obtain ⟨u, hu, hgo⟩ := run_cons_eq_some.1 hgo
  obtain ⟨hprep, hqueries, herr⟩ := run_prepares hpre ht
  obtain ⟨hstart, he⟩ := Crashing.step_act hu
  have hu' : u.pool = t.pool.start := by
    unfold Pool.step at hstart
    simp only [hprep.pc, if_true] at hstart
    exact (Option.some.inj hstart).symm
  have h0 : Survives b u := by
    refine ⟨t.pool.start, hprep.live, hprep.contentInv, hqueries.call hprep.jobs .start, ?_⟩
    have herr' : u.mError = fun _ => false := by
      rw [he, Crashing.errors, hprep.running, if_neg Bool.false_ne_true]
    rw [hu', herr', kill_none]
  obtain ⟨p, hl, hc, hq, hp⟩ := run_inv_on _ (Survives b) (fun _ _ _ ha h hs => h.step ha hs) post u s hpost h0 hgo
  rw [hp] at hproc hcur ⊢
  rw [(sameShown_kill p _).processing] at hproc
  refine (sameShown_kill p _).upToDate (upToDate_of_live hl hc hq hproc ⟨fun hnone => ?_, hcur.index⟩)
  have hloaded := hcur.loaded hnone
  rwa [kill_readBuffer] at hloaded

/-- After the sample's search worker 1 throws. -/
def survivedPost : List Crashing.Action := samplePost.map .act ++ [.throw 1, .act (.call .loadResults)]

def survivedRun : Option Crashing :=
  run (Crashing.step .scalar) (Crashing.init 2) (samplePre.map .act ++ .act (.call .start) :: survivedPost)

theorem survived_isSome : survivedRun.isSome = true := by decide +kernel

def survived : Crashing := survivedRun.get survived_isSome

theorem survived_run : survivedRun = some survived := (Option.some_get survived_isSome).symm

theorem crash_upToDate_sample : UpToDate .scalar survived.pool := by
  have hpost : ∀ a ∈ survivedPost, a.NoStop := by
    intro a ha
    simp only [survivedPost, List.mem_append, List.mem_map, List.mem_cons, List.not_mem_nil, or_false] at ha
    rcases ha with ⟨a, ha, rfl⟩ | rfl | rfl
    · exact samplePost_noStop a ha
    · trivial
    · trivial
  refine crash_upToDate .scalar 2 samplePre survivedPost survived samplePre_prepares hpost survived_run (by decide +kernel)
    ⟨fun h => absurd h (by decide +kernel), ?_⟩
  exact fun _ _ _ hi _ => lt_trans hi (by decide +kernel)

end Fzx
