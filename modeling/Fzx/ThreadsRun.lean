import Fzx.PoolRest
import Fzx.ThreadsRefine
/-!
# ThreadsRun — every run of the threads

A run of the threads is a run of the pool with the same calls (`threads_refine`), so that what holds of the pool's runs
holds of theirs: what is shown is up to date (`threads_upToDate`).
-/
namespace Fzx

open Lib

namespace Threads

/-- The pool's actions that an action may be. -/
inductive Action.Is : Threads.Action → Pool.Action → Prop where
  | call (c : Call) : Is (.call c) (.call c)
  | main : Is .main .main
  | loadResults : Is .main (.call .loadResults)
  | worker (w : ℕ) (back : Results) : Is (.worker w) (.worker w back)

/-- A step of a thread. -/
def Action.Internal : Threads.Action → Prop
  | .main | .worker _ => True
  | .call _ | .wake _ => False

/-- The call that is made, if it is not one to load the results, which happens later. -/
def Action.request : Threads.Action → Option Call
  | .call .loadResults => none
  | .call c => some c
  | _ => none

end Threads

def Pool.Action.request : Pool.Action → Option Call
  | .call .loadResults => none
  | .call c => some c
  | _ => none

theorem Threads.Action.Is.request {a : Threads.Action} {a' : Pool.Action} (h : a.Is a') : a'.request = a.request := by
  cases h with
  | call c => cases c <;> rfl
  | _ => rfl

namespace ThreadsOk

open Threads

variable {s s' : Threads} {w : ℕ}

theorem workerMove_simulates {b : Build} (h : ThreadsOk s) (hw : w < s.main.mWorkersSize) (hs : WorkerMove b s w s') :
    (s'.abs = s.abs ∧ s'.rank < s.rank) ∨ ∃ back, s.abs.step b (.worker w back) = some s'.abs := by
  have hw64 := hw.trans_le h.size
  have hstep : ∀ {back}, s.abs.workerStep b w back = some s'.abs → s.abs.step b (.worker w back) = some s'.abs := by
    intro back hs
    unfold Pool.step
    rw [← hs]
    exact if_pos hw
  cases hs with
  | own ho hP => exact .inr ⟨_, hstep (h.own_simulates hw ho hP)⟩
  | wait hpc hT =>
    obtain ⟨E, _, _, hE, he⟩ := (h.worker w).waitStep hT
    exact (wait_simulates hw64 hpc hE (he ▸ rfl)).imp_right (fun hs => ⟨_, hstep hs⟩)
  | get hpc hT => exact .inr ⟨_, hstep (get_simulates hpc hT)⟩
  | load hpc hi hc => exact (h.load_simulates hw64 hpc hi hc).imp_right (fun hs => ⟨_, hstep hs⟩)
  | commit hpc hno => exact (h.commit_simulates hw64 hpc hno).imp_right (fun ⟨back, hs⟩ => ⟨back, hstep hs⟩)
  | post hpc h0 hs => exact (h.notify_simulates hw64 hpc h0 hs).imp_right (fun hs => ⟨_, hstep hs⟩)

theorem wake_simulates (hc : (s.workers w).mEvents.consumer = .asleep) :
    (s.setWorker w { s.workers w with mEvents := { (s.workers w).mEvents with consumer := .relock } }).abs = s.abs := by
  refine abs_setWorker_same rfl rfl ?_
  have hself := absWorker_events (s := s) (k := w) (E := { (s.workers w).mEvents with consumer := .relock })
    (Events.sameConsumer_of_asleep hc rfl)
  rw [hself]
  rfl

/-- **A step of the threads** is one of the pool, or it is silent and nearer to the next one. -/
theorem step_simulates {b : Build} {a : Threads.Action} (h : ThreadsOk s) (hs : s.step b a = some s') :
    (a.request = none ∧ s'.abs = s.abs ∧ (a.Internal → s'.rank < s.rank)) ∨
      ∃ a', a.Is a' ∧ s.abs.step b a' = some s'.abs ∧
        (a.Internal → a'.Internal ∨ (a' = .call .loadResults ∧ s'.rank < s.rank)) := by
  unfold Threads.step at hs
  cases a with
  | call c =>
    simp only at hs
    split at hs
    · cases hs
    · rename_i hb
      rw [← Option.some.inj hs]
      rcases h.call_simulates (b := b) (Bool.eq_false_iff.2 hb) c with ⟨rfl, he⟩ | hs
      · exact .inl ⟨rfl, he, False.elim⟩
      · exact .inr ⟨_, .call c, hs, False.elim⟩
  | main =>
    rcases h.main_simulates (b := b) hs with ⟨he, hr⟩ | hs | ⟨hs, hr⟩
    · exact .inl ⟨rfl, he, fun _ => hr⟩
    · exact .inr ⟨_, .main, hs, fun _ => .inl trivial⟩
    · exact .inr ⟨_, .loadResults, hs, fun _ => .inr ⟨rfl, hr⟩⟩
  | worker w =>
    simp only at hs
    split at hs
    · rename_i hw
      rcases h.workerMove_simulates hw (workerMove_cases hs) with ⟨he, hr⟩ | ⟨back, hs⟩
      · exact .inl ⟨rfl, he, fun _ => hr⟩
      · exact .inr ⟨_, .worker w back, hs, fun _ => .inl trivial⟩
    · cases hs
  | wake w =>
    simp only at hs
    split at hs
    · rename_i hc
      rw [← Option.some.inj hs]
      exact .inl ⟨rfl, wake_simulates hc, False.elim⟩
    · cases hs

theorem simulates (b : Build) : Simulates (Threads.step b) (Pool.step b) ThreadsOk Threads.abs
    (fun a => a.request = none) Threads.Action.Is := by
  intro s a s' h hs
  rcases h.step_simulates hs with ⟨ha, he, _⟩ | ⟨a', ha, hs, _⟩
  · exact .inl ⟨ha, he⟩
  · exact .inr ⟨a', ha, hs⟩

end ThreadsOk

/-! ## Runs -/

theorem abs_init (hardwareConcurrency : ℕ) : (Threads.init hardwareConcurrency).abs = Pool.init hardwareConcurrency :=
  pool_ext rfl (fun w => ThreadsOk.abs_new w 0 _ _) rfl

theorem run_follows {b : Build} {as : List Threads.Action} {s t : Threads} (h : ThreadsOk s)
    (hr : run (Threads.step b) s as = some t) : ∃ bs, run (Pool.step b) s.abs bs = some t.abs ∧
      Follows (fun a : Threads.Action => a.request = none) Threads.Action.Is as bs :=
  run_simulates (fun _ _ _ h hs => h.step hs) (ThreadsOk.simulates b) as s t h hr

theorem run_threadsOk {b : Build} {hardwareConcurrency : ℕ} {as : List Threads.Action} {s : Threads}
    (hr : run (Threads.step b) (Threads.init hardwareConcurrency) as = some s) : ThreadsOk s :=
  run_inv ThreadsOk (fun _ _ _ h hs => h.step hs) as _ s (ThreadsOk.init_ok hardwareConcurrency) hr

/-- **The threads are the pool**: whatever they do, with the locks, the sleep and the exchanges of the event words and the
outputs in any order, and with condition variables that wake up for no reason, the pool does one step or none for each of
theirs, with the same calls, and is after each of them where they are. -/
theorem threads_refine (b : Build) (hardwareConcurrency : ℕ) (as : List Threads.Action) (s : Threads)
    (hrun : run (Threads.step b) (Threads.init hardwareConcurrency) as = some s) :
    ∃ bs : List (Option Pool.Action), bs.length = as.length ∧ ∀ k t,
      run (Threads.step b) (Threads.init hardwareConcurrency) (as.take k) = some t →
      run (Pool.step b) (Pool.init hardwareConcurrency) (bs.take k).reduceOption = some t.abs ∧
        (bs.take k).reduceOption.filterMap Pool.Action.request = (as.take k).filterMap Threads.Action.request := by
  obtain ⟨bs, hM, hbs⟩ := run_simulates_take (fun _ _ _ h hs => ThreadsOk.step h hs) (ThreadsOk.simulates b) as _ s
    (ThreadsOk.init_ok hardwareConcurrency) hrun
  refine ⟨bs, hM.length_eq.symm, fun k t ht => ⟨?_, ?_⟩⟩
  · rw [← abs_init]
    exact hbs k t ht
  · exact (follows_of_answers (List.forall₂_take k hM)).filterMap (fun _ ha => ha) (fun _ _ ha => ha.request)

namespace Threads

/-- Two items. -/
def samplePre : List Threads.Action := [.call (.pushItem [97]), .call (.pushItem [98])]

/-- They wake each other up, and go on until they sleep again. -/
def sampleGo : List Threads.Action :=
  List.replicate 9 .main ++ List.replicate 18 (.worker 1) ++ List.replicate 19 (.worker 0)

/-- Both workers fall asleep, and a query is set. -/
def sampleSearch : List Threads.Action :=
  List.replicate 4 (.worker 1) ++ List.replicate 4 (.worker 0) ++ .call (.setQuery [39, 97]) :: sampleGo

/-- Then the results are loaded. -/
def sampleLoad : List Threads.Action := [.call .loadResults, .main, .main]

theorem sample_isSome : (run (Threads.step .scalar) (Threads.init 2)
    (samplePre ++ .call .start :: (sampleSearch ++ sampleLoad))).isSome = true := by decide +kernel

def sample : Threads :=
  (run (Threads.step .scalar) (Threads.init 2) (samplePre ++ .call .start :: (sampleSearch ++ sampleLoad))).get sample_isSome

theorem sample_run : run (Threads.step .scalar) (Threads.init 2)
    (samplePre ++ .call .start :: (sampleSearch ++ sampleLoad)) = some sample := (Option.some_get sample_isSome).symm

end Threads

/-- The state that the whole run ends in, and the calls on the way to it. -/
theorem threads_refine_sample : ∃ bs, run (Pool.step .scalar) (Pool.init 2) bs = some Threads.sample.abs ∧
    bs.filterMap Pool.Action.request = [.pushItem [97], .pushItem [98], .start, .setQuery [39, 97]] := by
  obtain ⟨bs, -, hbs⟩ := threads_refine .scalar 2 _ Threads.sample Threads.sample_run
  obtain ⟨hrun, hrequest⟩ := hbs _ Threads.sample (by rw [List.take_length, Threads.sample_run])
  rw [List.take_length] at hrequest
  exact ⟨_, hrun, hrequest⟩

/-! ## What is shown -/

namespace Threads

def Action.Prepares : Threads.Action → Prop
  | .call c => (Pool.Action.call c).Prepares
  | _ => False

def Action.NoStop : Threads.Action → Prop
  | .call c => (Pool.Action.call c).NoStop
  | _ => True

def Action.NulFree : Threads.Action → Prop
  | .call c => (Pool.Action.call c).NulFree
  | _ => True

variable {a : Threads.Action} {a' : Pool.Action}

theorem Action.Is.prepares (h : a.Is a') (ha : a.Prepares) : a'.Prepares := by
  cases h with
  | call c => exact ha
  | _ => exact ha.elim

theorem Action.Is.noStop (h : a.Is a') (ha : a.NoStop) : a'.NoStop := by
  cases h with
  | call c => exact ha
  | _ => trivial

theorem Action.Is.nulFree (h : a.Is a') (ha : a.NulFree) : a'.NulFree := by
  cases h with
  | call c => exact ha
  | _ => trivial

end Threads

/-- A run that starts the workers is one of the pool that does. -/
theorem threads_start {b : Build} {hardwareConcurrency : ℕ} {pre post : List Threads.Action} {s : Threads}
    (hpre : ∀ a ∈ pre, a.Prepares) (hpost : ∀ a ∈ post, a.NoStop)
    (hrun : run (Threads.step b) (Threads.init hardwareConcurrency) (pre ++ .call .start :: post) = some s) :
    ∃ pre' post' : List Pool.Action, (∀ a ∈ pre', a.Prepares) ∧ (∀ a ∈ post', a.NoStop) ∧
      ((∀ a ∈ pre ++ .call .start :: post, a.NulFree) → ∀ a ∈ pre' ++ .call .start :: post', a.NulFree) ∧
      run (Pool.step b) (Pool.init hardwareConcurrency) (pre' ++ .call .start :: post') = some s.abs := by
  obtain ⟨t, ht, hgo⟩ := run_append_eq_some.1 hrun
  obtain ⟨u, hu, hgo⟩ := run_cons_eq_some.1 hgo
  obtain ⟨pre', hpre', hf⟩ := run_follows (ThreadsOk.init_ok hardwareConcurrency) ht
  rw [abs_init] at hpre'
  have htok := run_threadsOk ht
  obtain ⟨post', hpost', hf'⟩ := run_follows (htok.step hu) hgo
  have hstart : t.abs.step b (.call .start) = some u.abs := by
    rcases htok.step_simulates hu with ⟨hno, _⟩ | ⟨a', ha, hs, _⟩
    · cases hno
    · cases ha
      exact hs
  refine ⟨pre', post', fun a' ha' => ?_, fun a' ha' => ?_, fun hnul a' ha' => ?_, ?_⟩
  · obtain ⟨a, ha, his⟩ := hf.mem ha'
    exact his.prepares (hpre a ha)
  · obtain ⟨a, ha, his⟩ := hf'.mem ha'
    exact his.noStop (hpost a ha)
  · rcases List.mem_append.1 ha' with ha' | ha'
    · obtain ⟨a, ha, his⟩ := hf.mem ha'
      exact his.nulFree (hnul a (List.mem_append_left _ ha))
    · rcases List.mem_cons.1 ha' with rfl | ha'
      · trivial
      · obtain ⟨a, ha, his⟩ := hf'.mem ha'
        exact his.nulFree (hnul a (List.mem_append_right _ (List.mem_cons_of_mem _ ha)))
  · exact run_append_eq_some.2 ⟨t.abs, hpre', run_cons_eq_some.2 ⟨u.abs, hstart, hpost'⟩⟩

/-- Between its calls the main thread sees what the pool's does. -/
theorem sameShown_abs {s : Threads} (hb : s.busy = false) : SameShown s.abs s.own := by
  obtain ⟨hpc, hr⟩ := ThreadsOk.not_busy hb
  refine ⟨?_, (Tx.output_readBuffer hr).symm⟩
  have hpc' : s.absPc = s.main.pc := by
    unfold Threads.absPc
    rw [hpc]
  change s.main = { s.main with pc := s.absPc }
  rw [hpc']

theorem sameShown_own {s : Threads} (hb : s.busy = false) : SameShown s.own s.abs :=
  ⟨(sameShown_abs hb).main.symm, (sameShown_abs hb).readBuffer.symm⟩

/-- **What the threads show is up to date**: in every state of every run that starts the workers before the first commit,
where the main thread is in no call, `processing` says false, and a query is set or no results of a cleared query are
loaded. -/
theorem threads_upToDate (b : Build) (hardwareConcurrency : ℕ) (pre post : List Threads.Action) (s : Threads)
    (hpre : ∀ a ∈ pre, a.Prepares) (hpost : ∀ a ∈ post, a.NoStop)
    (hrun : run (Threads.step b) (Threads.init hardwareConcurrency) (pre ++ .call .start :: post) = some s)
    (hb : s.busy = false) (hproc : s.own.processing = false) (hcur : Current b s.own) : UpToDate b s.own := by
  obtain ⟨pre', post', hpre', hpost', -, hrun'⟩ := threads_start hpre hpost hrun
  obtain ⟨hl, hc⟩ := live_run (ContentInv b) (fun _ hp => hp.contentInv) (fun _ _ hl h hs => hs.contentInv hl h)
    hpre' hpost' hrun'
  have hshown := sameShown_abs hb
  exact hshown.upToDate (upToDate_of_live hl hc (run_queries hrun') (hshown.processing ▸ hproc)
    ((sameShown_own hb).current hcur))

theorem Threads.samplePre_prepares : ∀ a ∈ samplePre, a.Prepares := by
  intro a ha
  simp only [samplePre, List.mem_cons, List.not_mem_nil, or_false] at ha
  rcases ha with rfl | rfl <;> trivial

theorem Threads.sampleSearch_noStop : ∀ a ∈ sampleSearch, a.NoStop := by
  intro a ha
  simp only [sampleSearch, sampleGo, List.mem_append, List.mem_cons, List.mem_replicate] at ha
  rcases ha with (⟨_, rfl⟩ | ⟨_, rfl⟩) | rfl | (⟨_, rfl⟩ | ⟨_, rfl⟩) | ⟨_, rfl⟩ <;> trivial

theorem Threads.sampleLoad_noStop : ∀ a ∈ sampleLoad, a.NoStop := by
  intro a ha
  simp only [sampleLoad, List.mem_cons, List.not_mem_nil, or_false] at ha
  rcases ha with rfl | rfl | rfl <;> trivial

theorem threads_upToDate_sample : UpToDate .scalar Threads.sample.own := by
  refine threads_upToDate .scalar 2 Threads.samplePre (Threads.sampleSearch ++ Threads.sampleLoad) Threads.sample
    Threads.samplePre_prepares (fun a ha => ?_) Threads.sample_run (by decide +kernel) (by decide +kernel) ⟨?_, ?_⟩
  · exact (List.mem_append.1 ha).elim (Threads.sampleSearch_noStop a) (Threads.sampleLoad_noStop a)
  · decide +kernel
  · decide +kernel

end Fzx
