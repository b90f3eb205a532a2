import Fzx.ThreadsRun
/-!
# ThreadsRest — the threads never hang

Also with the locks and the sleep no thread waits for ever: where none can go on, the main thread is in no call, and every
worker sleeps on its condition variable with no event (`threads_stuck_iff`).  No wakeup is lost, and nobody keeps a mutex
(`Events.Owned.free`).  The threads take a bounded number of steps (`threads_steps_bounded`), and then the search is done
(`threads_search_completes`).
-/
namespace Fzx

open Lib

/-! ## Own work that cannot go on -/

/-- Where the thread's own work cannot go on, the pool's worker cannot. -/
theorem workerStep_share_none {b : Build} {p q : Pool} {w : ℕ} {E : EventSet} {O : Output} {T : WorkerThread}
    (ho : T.OnOwn w) (hT : p.workers w = T.own) (hw : q.workers w = T.own.share E O)
    (h : p.workerStep b w {} = none) (back : Results) : q.workerStep b w back = none := by
  unfold Pool.workerStep at h ⊢
  rw [hw]
  rw [hT] at h
  have hown : T.own.pc = T.pc := rfl
  have hshare : (T.own.share E O).pc = T.pc := rfl
  cases hpc : T.pc with
  | wait => exact absurd hpc ho.wait
  | stopped => simp only [hshare, hpc]
  | take =>
    simp only [hown, hpc, Option.map_eq_none_iff] at h
    simp only [hshare, hpc, Option.map_eq_none_iff]
    exact h
  | chunk start stop =>
    simp only [hown, hpc, Option.bind_eq_none_iff, Option.map_eq_none_iff] at h
    simp only [hshare, hpc, Option.bind_eq_none_iff, Option.map_eq_none_iff]
    exact h
  | merge i =>
    simp only [hown, hpc] at h
    split at h
    · split at h <;> cases h
    · cases h
  | publish =>
    simp only [hown, hpc] at h
    split at h <;> cases h
  | notify =>
    simp only [hown, hpc] at h
    split at h <;> cases h
  | _ =>
    simp only [hown, hpc] at h
    cases h

/-! ## Where nothing moves -/

namespace Threads

/-- The main thread is in no call, and every worker sleeps with no event in its word. -/
structure AtRest (s : Threads) : Prop where
  busy : s.busy = false
  asleep : ∀ w < s.main.mWorkersSize, (s.workers w).pc = .wait ∧ (s.workers w).mEvents.consumer = .asleep ∧
    (s.workers w).mEvents.mState = Events.kWaitFlag

end Threads

/-- What holds of every run of the threads whose queries have no NUL. -/
structure ThreadsQuiet (s : Threads) : Prop where
  ok : ThreadsOk s
  quiet : QuietOk (fun _ => False) s.abs

theorem ThreadsQuiet.step {b : Build} {s s' : Threads} {a : Threads.Action} (h : ThreadsQuiet s) (ha : a.NulFree)
    (hs : s.step b a = some s') : ThreadsQuiet s' := by
  refine ⟨h.ok.step hs, ?_⟩
  rcases h.ok.step_simulates hs with ⟨-, he, -⟩ | ⟨a', his, hs', -⟩
  · exact he ▸ h.quiet
  · exact h.quiet.step (his.nulFree ha) hs'

theorem threadsQuiet_init (hardwareConcurrency : ℕ) : ThreadsQuiet (Threads.init hardwareConcurrency) :=
  ⟨ThreadsOk.init_ok hardwareConcurrency, (abs_init hardwareConcurrency).symm ▸ quietOk_init _ _⟩

theorem run_threadsQuiet {b : Build} {hardwareConcurrency : ℕ} {as : List Threads.Action} {s : Threads}
    (hnul : ∀ a ∈ as, a.NulFree) (hr : run (Threads.step b) (Threads.init hardwareConcurrency) as = some s) :
    ThreadsQuiet s :=
  run_inv_on _ ThreadsQuiet (fun _ _ _ ha h hs => h.step ha hs) as _ s hnul (threadsQuiet_init _) hr

namespace ThreadsOk

open Threads

variable {b : Build} {s : Threads} {w k p : ℕ}

/-- A poster that cannot go on is in no post, or waits for the mutex. -/
theorem posterStep_of_post {flags : BitVec 32} {goOn : Threads → Threads} (hs : s.postStep k p flags goOn = none) :
    Events.posterStep (s.workers k).mEvents p = none := by
  have hs := Option.map_eq_none_iff.1 hs
  split at hs
  · rename_i hidle
    unfold Events.posterStep
    rw [hidle]
  · exact hs

/-- A post can begin. -/
theorem postStep_of_idle {flags : BitVec 32} {goOn : Threads → Threads} (hidle : (s.workers k).mEvents.posters p = .idle)
    (hf : flags &&& Events.kWaitFlag = 0#32 ∧ flags ≠ 0#32) : s.postStep k p flags goOn ≠ none := by
  intro hs
  have hs := Option.map_eq_none_iff.1 hs
  rw [if_pos hidle] at hs
  unfold Events.post at hs
  rw [if_pos ⟨hidle, hf⟩] at hs
  cases hs

theorem workerStep_of_stuck (hs : Stuck (Threads.step b) Threads.Action.Internal s) (hw : w < s.main.mWorkersSize) :
    s.workerStep b w = none := by
  have h0 := hs (.worker w) trivial
  unfold Threads.step at h0
  simpa only [hw, if_true] using h0

/-- A worker that cannot go on is in no step of `wait` that can. -/
theorem consumerStep_of_stuck (h : ThreadsOk s) (hs : s.workerStep b w = none) :
    Events.consumerStep (s.workers w).mEvents = none := by
  by_cases hidle : (s.workers w).mEvents.consumer = .idle
  · unfold Events.consumerStep
    rw [hidle]
  · have hpc := (h.worker w).consumer hidle
    unfold Threads.workerStep at hs
    simp only [hpc] at hs
    have hs := Option.map_eq_none_iff.1 hs
    unfold WorkerThread.waitStep at hs
    split at hs
    · cases hs
    · exact Option.map_eq_none_iff.1 hs
    · exact Option.map_eq_none_iff.1 hs

/-- **Where no thread can go on nobody is in a post**, and a worker is in no `wait` or asleep. -/
theorem free_of_stuck (h : ThreadsOk s) (hs : Stuck (Threads.step b) Threads.Action.Internal s)
    (hk : k < s.main.mWorkersSize) : (∀ p, (s.workers k).mEvents.posters p = .idle) ∧
      ((s.workers k).mEvents.consumer = .idle ∨ (s.workers k).mEvents.consumer = .asleep) := by
  have hmain : s.mainStep = none := hs .main trivial
  refine (h.worker k).owned.free (h.consumerStep_of_stuck (workerStep_of_stuck hs hk)) (fun p => ?_)
  by_cases hidle : (s.workers k).mEvents.posters p = .idle
  · unfold Events.posterStep
    rw [hidle]
  · rcases h.poster k p hidle with ⟨rfl, hlt, hpc⟩ | ⟨h0, hlt, rfl, hpc⟩
    · unfold Threads.mainStep at hmain
      rcases hpc with hpc | hpc <;>
      · simp only [hpc] at hmain
        rw [if_pos hlt] at hmain
        exact posterStep_of_post hmain
    · have hworker := workerStep_of_stuck hs hlt
      unfold Threads.workerStep at hworker
      simp only [hpc] at hworker
      rw [if_neg h0] at hworker
      exact posterStep_of_post hworker

/-- Where no thread can go on a worker sleeps, or its own work cannot go on. -/
theorem asleep_or_own (h : ThreadsOk s) (hs : Stuck (Threads.step b) Threads.Action.Internal s)
    (hw : w < s.main.mWorkersSize) : ((s.workers w).pc = .wait ∧ (s.workers w).mEvents.consumer = .asleep ∧
      (s.workers w).mEvents.mState = Events.kWaitFlag) ∨
      ((s.workers w).OnOwn w ∧ s.own.workerStep b w {} = none) := by
  have hstep := workerStep_of_stuck hs hw
  obtain ⟨hposters, hconsumer⟩ := h.free_of_stuck hs hw
  have hT := h.worker w
  rcases workerStep_eq b s w with ⟨hpc, he⟩ | ⟨hpc, he⟩ | ⟨i, hpc, _, _, he⟩ | ⟨hpc, _, he⟩ | ⟨hpc, h0, he⟩ | ⟨ho, he⟩ <;>
    rw [he] at hstep
  · have hwait := Option.map_eq_none_iff.1 hstep
    have hasleep : (s.workers w).mEvents.consumer = .asleep := by
      refine hconsumer.resolve_left (fun hidle => ?_)
      unfold WorkerThread.waitStep at hwait
      simp only [hidle] at hwait
      cases hwait
    exact .inl ⟨hpc, hasleep, hT.events.state_of_asleep hasleep hposters⟩
  · have hget := Option.map_eq_none_iff.1 (Option.map_eq_none_iff.1 hstep)
    have hidle : (s.workers w).mEvents.consumer = .idle := by
      by_contra hne
      cases hpc.symm.trans (hT.consumer hne)
    unfold Events.get at hget
    rw [if_pos hidle] at hget
    cases hget
  · cases hstep
  · cases hstep
  · have hw64 := hw.trans_le h.size
    have hparent := (h.free_of_stuck hs ((parent_lt w hw64 h0).trans hw)).1 w
    exact absurd hstep (postStep_of_idle hparent (by decide))
  · exact .inr ⟨ho, Option.map_eq_none_iff.1 hstep⟩

theorem absPc_stopped {T : WorkerThread} {l r : Bool} (h : T.absPc l r = .stopped) : T.pc = .stopped := by
  unfold WorkerThread.absPc at h
  cases hpc : T.pc with
  | stopped => rfl
  | wait =>
    simp only [hpc] at h
    cases ht : T.mEvents.consumer.taken with
    | none =>
      rw [ht] at h
      cases h
    | some ev =>
      rw [ht] at h
      cases h
  | merge i =>
    simp only [hpc] at h
    split at h <;> cases h
  | publish =>
    simp only [hpc] at h
    split at h <;> cases h
  | notify =>
    simp only [hpc] at h
    split at h <;> cases h
  | _ =>
    simp only [hpc] at h
    cases h

theorem mainPc_idle (hpc : s.abs.main.pc = .idle) : s.main.pc = .idle := by
  have hpc : s.absPc = .idle := hpc
  unfold Threads.absPc at hpc
  cases hm : s.main.pc with
  | idle => rfl
  | joining k =>
    simp only [hm] at hpc
    cases hpc
  | _ =>
    simp only [hm] at hpc
    split at hpc <;> cases hpc

/-- The main thread that cannot go on is in no call, or joins a worker that has not stopped. -/
theorem main_of_stuck (h : ThreadsOk s) (hs : Stuck (Threads.step b) Threads.Action.Internal s) :
    s.busy = false ∨ ∃ k < s.main.mWorkersSize, s.main.pc = .joining k ∧ (s.workers k).pc ≠ .stopped := by
  have hmain : s.mainStep = none := hs .main trivial
  unfold Threads.mainStep at hmain
  have hpost : ∀ {k flags goOn}, k < s.main.mWorkersSize → flags &&& Events.kWaitFlag = 0#32 ∧ flags ≠ 0#32 →
      s.postStep k 0 flags goOn ≠ none := fun hk => postStep_of_idle ((h.free_of_stuck hs hk).1 0)
  cases hpc : s.main.pc with
  | idle =>
    simp only [hpc] at hmain
    split at hmain
    · rename_i hr
      left
      unfold Threads.busy
      rw [hpc, hr]
      rfl
    · cases hmain
  | posting k =>
    simp only [hpc] at hmain
    split at hmain
    · rename_i hk
      exact absurd hmain (hpost hk (by decide))
    · rename_i hk
      simp only [Pool.mainStep, Threads.own, hpc, hk, if_false] at hmain
      cases hmain
  | stopping k =>
    simp only [hpc] at hmain
    split at hmain
    · rename_i hk
      exact absurd hmain (hpost hk (by decide))
    · rename_i hk
      simp only [Pool.mainStep, Threads.own, hpc, hk, if_false] at hmain
      cases hmain
  | joining k =>
    right
    simp only [hpc] at hmain
    have hown := Option.map_eq_none_iff.1 hmain
    unfold Pool.mainStep at hown
    by_cases hk : k < s.main.mWorkersSize
    · refine ⟨k, hk, rfl, fun hw => ?_⟩
      simp only [Threads.own, hpc, hk, if_true, WorkerThread.own, hw] at hown
      cases hown
    · simp only [Threads.own, hpc, hk, if_false] at hown
      cases hown

/-- **Where no thread can go on, the pool cannot.** -/
theorem stuck_abs (h : ThreadsOk s) (hs : Stuck (Threads.step b) Threads.Action.Internal s) :
    Stuck (Pool.step b) Pool.Action.Internal s.abs := by
  intro a ha
  unfold Pool.step
  cases a with
  | call c => exact ha.elim
  | main =>
    unfold Pool.mainStep
    rcases h.main_of_stuck hs with hb | ⟨k, hk, hpc, hw⟩
    · have hpc : s.abs.main.pc = .idle := (sameShown_abs hb).main ▸ (not_busy hb).1
      simp only [hpc]
    · have hpc' : s.abs.main.pc = .joining k := by
        change s.absPc = _
        unfold Threads.absPc
        rw [hpc]
      have hk' : k < s.abs.main.mWorkersSize := hk
      have hw' : (s.abs.workers k).pc ≠ .stopped := fun he => hw (absPc_stopped he)
      simp only [hpc', hk', hw', if_true, if_false]
  | worker w back =>
    simp only
    split
    · rename_i hw
      rcases h.asleep_or_own hs hw with ⟨hpc, hasleep, hm⟩ | ⟨ho, hown⟩
      · have hpc' : (s.abs.workers w).pc = .wait := by
          refine (WorkerThread.absPc_wait hpc).trans ?_
          rw [hasleep]
          rfl
        have hev : (s.abs.workers w).mEvents.any = false := by
          change (Events.ofBits (s.workers w).mEvents.mState).any = false
          rw [hm]
          rfl
        unfold Pool.workerStep
        simp only [hpc', hev, Bool.false_eq_true, if_false]
      · exact workerStep_share_none ho rfl (h.absWorker_own ho) hown back
    · rfl

end ThreadsOk

/-- **The threads stop moving only where every worker sleeps.** -/
theorem ThreadsQuiet.stuck_iff {b : Build} {s : Threads} (h : ThreadsQuiet s) :
    Stuck (Threads.step b) Threads.Action.Internal s ↔ s.AtRest := by
  constructor
  · intro hs
    have hrest : AtRest s.abs := h.quiet.atRest_iff.1 (h.ok.stuck_abs hs)
    have hidle := ThreadsOk.mainPc_idle hrest.1
    refine ⟨(h.ok.main_of_stuck hs).resolve_right (fun ⟨k, _, hpc, _⟩ => by cases hidle.symm.trans hpc), fun w hw => ?_⟩
    refine (h.ok.asleep_or_own hs hw).resolve_right (fun ⟨ho, _⟩ => ho.wait ?_)
    have hpc := (hrest.2 w hw).1
    rw [h.ok.absWorker_own ho] at hpc
    exact hpc
  · rintro ⟨hb, hasleep⟩ a ha
    obtain ⟨hpc, hr⟩ := ThreadsOk.not_busy hb
    unfold Threads.step
    cases a with
    | call c => exact ha.elim
    | wake w => exact ha.elim
    | main =>
      simp only [Threads.mainStep, hpc, hr, if_true]
    | worker w =>
      simp only
      split
      · rename_i hw
        obtain ⟨hpc, hc, -⟩ := hasleep w hw
        simp only [Threads.workerStep, hpc, WorkerThread.waitStep, hc, Events.consumerStep, Option.map_none]
      · rfl

/-! ## What is left -/

theorem Events.ConsumerPc.rank_le (pc : ConsumerPc) : pc.rank ≤ 7 := by cases pc <;> simp [ConsumerPc.rank]

theorem Events.PosterPc.rank_le (pc : PosterPc) : pc.rank ≤ 6 := by cases pc <;> simp [PosterPc.rank]

theorem Tx.WriterPc.rank_le (pc : WriterPc) : pc.rank ≤ 3 := by cases pc <;> simp [WriterPc.rank]

theorem Tx.ReaderPc.rank_le (pc : ReaderPc) : pc.rank ≤ 5 := by cases pc <;> simp [ReaderPc.rank]

theorem Tx.Sys.rank_le (s : Sys Results) : s.rank ≤ 5 := by
  unfold Sys.rank
  split
  · exact le_rfl
  · split <;> decide

theorem WorkerThread.rank_le (w : ℕ) (T : WorkerThread) : T.rank w ≤ 399 := by
  have hposters : ∑ p ∈ Finset.range 64, (T.mEvents.posters p).rank ≤ 64 * 6 := by
    have hle := Finset.sum_le_card_nsmul (Finset.range 64) (fun p => (T.mEvents.posters p).rank) 6
      (fun p _ => Events.PosterPc.rank_le _)
    rwa [Finset.card_range, smul_eq_mul] at hle
  have hconsumer := T.mEvents.consumer.rank_le
  have hwriter := T.mOutput.writer.rank_le
  have hreader := T.mOutput.reader.rank_le
  have hrank := T.mOutput.rank_le
  unfold WorkerThread.rank
  split <;> omega

theorem WorkerThread.rank_wake {w : ℕ} {T : WorkerThread} {E : Events.Sys} (hp : E.posters = T.mEvents.posters)
    (hr : E.consumer.rank ≤ T.mEvents.consumer.rank + 3) :
    WorkerThread.rank w { T with mEvents := E } ≤ T.rank w + 3 := by
  unfold WorkerThread.rank
  dsimp only
  rw [hp]
  omega

namespace Threads

variable {b : Build} {s s' : Threads}

theorem rank_le (s : Threads) : s.rank ≤ 64 * 399 := by
  have hle := Finset.sum_le_card_nsmul (Finset.range 64) (fun w => (s.workers w).rank w) 399
    (fun w _ => (s.workers w).rank_le w)
  rwa [Finset.card_range, smul_eq_mul] at hle

/-- The pool's work, each step of which may take all the steps of all calls. -/
def work (s : Threads) : ℕ := s.abs.work * (64 * 399 + 1) + s.rank

/-- Who wakes up looks at the word again. -/
def Action.gain : Threads.Action → ℕ
  | .wake _ => 4
  | _ => 0

/-- The steps that are no calls, and wakeups for no reason. -/
def Action.Own : Threads.Action → Prop
  | .call _ => False
  | _ => True

theorem work_loadResults (s : Pool) : s.loadResults.work = s.work := by
  unfold Pool.loadResults
  split
  · rfl
  · refine congrArg (s.main.work + ·) (Finset.sum_congr rfl (fun w _ => ?_))
    by_cases hw : w = 0
    · rw [hw, setWorker_self]
      rfl
    · rw [setWorker_other hw]
      rfl

theorem rank_wake {w : ℕ} (hc : (s.workers w).mEvents.consumer = .asleep) :
    (s.setWorker w { s.workers w with mEvents := { (s.workers w).mEvents with consumer := .relock } }).rank ≤ s.rank + 3 := by
  refine sum_le_of_gain (p := w) (fun v _ => ?_)
  by_cases hv : v = w
  · rw [hv, worker_self, if_pos rfl]
    exact WorkerThread.rank_wake rfl (by rw [hc]; exact le_rfl)
  · rw [worker_other hv]
    exact Nat.le_add_right _ _

end Threads

/-- What is left to do in any run: whatever the queries are. -/
structure ThreadsRestOk (s : Threads) : Prop where
  ok : ThreadsOk s
  rest : RestOk s.abs

theorem ThreadsQuiet.restOk {s : Threads} (h : ThreadsQuiet s) : ThreadsRestOk s := ⟨h.ok, h.quiet.rest⟩

namespace ThreadsRestOk

variable {b : Build} {s s' : Threads} {a : Threads.Action}

theorem step (h : ThreadsRestOk s) (hs : s.step b a = some s') : ThreadsRestOk s' := by
  refine ⟨h.ok.step hs, ?_⟩
  rcases h.ok.step_simulates hs with ⟨-, he, -⟩ | ⟨a', -, hs', -⟩
  · exact he ▸ h.rest
  · exact h.rest.step hs'

/-- **Every step does some of the work**, a wakeup apart. -/
theorem work_lt (h : ThreadsRestOk s) (ha : a.Own) (hs : s.step b a = some s') : s'.work < s.work + a.gain := by
  have hrank := s.rank_le
  have hrank' := s'.rank_le
  unfold Threads.work
  cases a with
  | call c => exact ha.elim
  | wake w =>
    unfold Threads.step at hs
    simp only at hs
    split at hs
    · rename_i hc
      have he := Option.some.inj hs
      have habs : s'.abs = s.abs := he ▸ ThreadsOk.wake_simulates hc
      have hle : s'.rank ≤ s.rank + 3 := he ▸ Threads.rank_wake hc
      rw [habs]
      change _ < _ + _ + 4
      omega
    · cases hs
  | _ =>
    change _ < _ + _ + 0
    rcases h.ok.step_simulates hs with ⟨-, he, hr⟩ | ⟨a', his, hs', hi⟩
    · have hlt := hr trivial
      rw [he]
      omega
    · rcases hi trivial with hint | ⟨rfl, hlt⟩
      · have hwork := h.rest.work_lt hint hs'
        omega
      · have hwork : s'.abs.work = s.abs.work := by
          unfold Pool.step at hs'
          simp only at hs'
          split at hs'
          · rw [← Option.some.inj hs']
            exact Threads.work_loadResults s.abs
          · cases hs'
        rw [hwork]
        omega

theorem work_le (h : ThreadsRestOk s) :
    s.work ≤ (s.main.mWorkersSize * (8 * chunks s.main.mItems.length + 119) + 4) * (64 * 399 + 1) := by
  have hwork : s.abs.work ≤ s.main.mWorkersSize * (8 * chunks s.main.mItems.length + 119) + 3 := h.rest.work_le
  have hrank := s.rank_le
  unfold Threads.work
  generalize s.main.mWorkersSize * (8 * chunks s.main.mItems.length + 119) = n at hwork ⊢
  omega

end ThreadsRestOk

/-- **No deadlock, down to the locks**: in every run whose queries have no NUL, where no thread can go on the main thread is
in no call and every worker sleeps on its condition variable with no event in its word; and to such a state the threads
can always go on. -/
theorem threads_stuck_iff (b : Build) (hardwareConcurrency : ℕ) (as : List Threads.Action) (s : Threads)
    (hnul : ∀ a ∈ as, a.NulFree) (hrun : run (Threads.step b) (Threads.init hardwareConcurrency) as = some s) :
    (Stuck (Threads.step b) Threads.Action.Internal s ↔ s.AtRest) ∧
      ∃ bs t, (∀ a ∈ bs, a.Internal) ∧ run (Threads.step b) s bs = some t ∧ t.AtRest := by
  have h := run_threadsQuiet hnul hrun
  have hown : ∀ {a : Threads.Action}, a.Internal → a.Own ∧ a.NulFree ∧ a.gain = 0 := by
    intro a ha
    cases a with
    | call c => exact ha.elim
    | wake w => exact ha.elim
    | _ => exact ⟨trivial, trivial, rfl⟩
  have hlt : ∀ s a t, a.Internal → ThreadsQuiet s → Threads.step b s a = some t → t.work < s.work := by
    intro s a t ha h hs
    have hlt := h.restOk.work_lt (hown ha).1 hs
    rwa [(hown ha).2.2, Nat.add_zero] at hlt
  have hstep : ∀ s a t, a.Internal → ThreadsQuiet s → Threads.step b s a = some t → ThreadsQuiet t :=
    fun _ _ _ ha h hs => h.step (hown ha).2.1 hs
  obtain ⟨bs, t, hint, hgo, hstuck⟩ := exists_stuck hstep hlt s h
  exact ⟨h.stuck_iff, bs, t, hint, hgo, (run_inv_on _ ThreadsQuiet hstep bs s t hint h hgo).stuck_iff.1 hstuck⟩

namespace Threads

theorem asleep_isSome : (run (Threads.step .scalar) (Threads.init 2)
    (samplePre ++ .call .start :: sampleSearch)).isSome = true := by decide +kernel

/-- Before the sample's results are loaded. -/
def asleep : Threads :=
  (run (Threads.step .scalar) (Threads.init 2) (samplePre ++ .call .start :: sampleSearch)).get asleep_isSome

theorem asleep_run : run (Threads.step .scalar) (Threads.init 2) (samplePre ++ .call .start :: sampleSearch) = some asleep :=
  (Option.some_get asleep_isSome).symm

theorem asleep_atRest : asleep.AtRest := ⟨by decide +kernel, by decide +kernel⟩

theorem sampleQuery_nulFree : (Threads.Action.call (.setQuery [39, 97])).NulFree := Fzx.sampleQuery_nulFree

theorem sample_nulFree : ∀ a ∈ samplePre ++ .call .start :: sampleSearch, a.NulFree := by
  intro a ha
  simp only [samplePre, sampleSearch, sampleGo, List.mem_append, List.mem_cons, List.mem_replicate, List.not_mem_nil,
    or_false] at ha
  rcases ha with (rfl | rfl) | rfl | (⟨_, rfl⟩ | ⟨_, rfl⟩) | rfl | (⟨_, rfl⟩ | ⟨_, rfl⟩) | ⟨_, rfl⟩ <;>
    first | trivial | exact sampleQuery_nulFree

end Threads

theorem threads_stuck_asleep : Stuck (Threads.step .scalar) Threads.Action.Internal Threads.asleep :=
  (threads_stuck_iff .scalar 2 _ Threads.asleep Threads.sample_nulFree Threads.asleep_run).1.2 Threads.asleep_atRest

/-- **No livelock, down to the exchanges**: from every state of every run the threads take a bounded number of atomic steps
in any order, linear in the chunks of the items and in the wakeups for no reason. -/
theorem threads_steps_bounded (b : Build) (hardwareConcurrency : ℕ) (as bs : List Threads.Action) (s t : Threads)
    (hrun : run (Threads.step b) (Threads.init hardwareConcurrency) as = some s) (hown : ∀ a ∈ bs, a.Own)
    (hgo : run (Threads.step b) s bs = some t) :
    bs.length ≤ (s.main.mWorkersSize * (8 * chunks s.main.mItems.length + 119) + 4) * (64 * 399 + 1) +
      (bs.map Threads.Action.gain).sum := by
  have hinit : ThreadsRestOk (Threads.init hardwareConcurrency) :=
    ⟨ThreadsOk.init_ok _, (abs_init hardwareConcurrency).symm ▸ restOk_init _⟩
  have h : ThreadsRestOk s := run_inv ThreadsRestOk (fun _ _ _ h hs => h.step hs) as _ s hinit hrun
  have hle : bs.length + t.work ≤ s.work + (bs.map Threads.Action.gain).sum :=
    run_length_le_of_gain (fun _ _ _ _ h hs => h.step hs) (fun _ _ _ ha h hs => h.work_lt ha hs) bs s t hown h hgo
  have hwork := h.work_le
  omega

theorem Threads.sampleGo_own : ∀ a ∈ sampleGo, a.Own := by
  intro a ha
  simp only [sampleGo, List.mem_append, List.mem_replicate] at ha
  rcases ha with (⟨_, rfl⟩ | ⟨_, rfl⟩) | ⟨_, rfl⟩ <;> trivial

/-- The sample up to the call of `setQuery`. -/
def Threads.sampleBefore : List Threads.Action :=
  samplePre ++ .call .start :: (List.replicate 4 (.worker 1) ++ List.replicate 4 (.worker 0) ++ [.call (.setQuery [39, 97])])

theorem threads_steps_bounded_sample : ∃ s : Threads,
    run (Threads.step .scalar) (Threads.init 2) Threads.sampleBefore = some s ∧
    run (Threads.step .scalar) s Threads.sampleGo = some Threads.asleep ∧
    Threads.sampleGo.length ≤ (s.main.mWorkersSize * (8 * chunks s.main.mItems.length + 119) + 4) * (64 * 399 + 1) := by
  have hrun : run (Threads.step .scalar) (Threads.init 2) (Threads.sampleBefore ++ Threads.sampleGo) = some Threads.asleep :=
    Threads.asleep_run
  obtain ⟨s, hs, hgo⟩ := run_append_eq_some.1 hrun
  have hle := threads_steps_bounded .scalar 2 _ Threads.sampleGo s Threads.asleep hs Threads.sampleGo_own hgo
  have hgain : (Threads.sampleGo.map Threads.Action.gain).sum = 0 := rfl
  rw [hgain, Nat.add_zero] at hle
  exact ⟨s, hs, hgo, hle⟩

/-! ## Every search ends -/

namespace ThreadsOk

open Threads

variable {b : Build} {s s' : Threads}

/-- The threads leave the items, the query and the job alone. -/
theorem internal_main {a : Threads.Action} (h : ThreadsOk s) (ha : a.Own) (hs : s.step b a = some s') :
    s'.main = { s.main with pc := s'.main.pc, mWorkersSize := s'.main.mWorkersSize } := by
  have habs : s'.abs.main = { s.abs.main with pc := s'.abs.main.pc, mWorkersSize := s'.abs.main.mWorkersSize } := by
    rcases h.step_simulates hs with ⟨-, he, -⟩ | ⟨a', his, hs', -⟩
    · rw [he]
    · cases his with
      | call c => exact ha.elim
      | loadResults =>
        unfold Pool.step at hs'
        simp only at hs'
        split at hs'
        · rw [← Option.some.inj hs']
          have hm : (s.abs.call .loadResults).main = s.abs.main := loadResults_main s.abs
          rw [hm]
        · cases hs'
      | main => exact Fzx.internal_main (a := .main) h.size trivial hs'
      | worker w back => exact Fzx.internal_main (a := .worker w back) h.size trivial hs'
  exact congrArg (fun m : Main => { m with pc := s'.main.pc }) habs

theorem not_loaded_of_idle {O : Tx.Sys Results} (h : O.reader = .idle) : O.loaded = false := by
  unfold Tx.Sys.loaded
  rw [h]

/-- **A load of the results returns**, with nobody else going on. -/
theorem load_returns {P : Pool} (h : ThreadsOk s) (hpc : s.main.pc = .idle) (hn : 0 < s.main.mWorkersSize)
    (hr : (s.workers 0).mOutput.reader ≠ .idle)
    (habs : s.abs = if (s.workers 0).mOutput.loaded = true then P.loadResults else P) :
    ∃ k ≤ (s.workers 0).mOutput.reader.rank, ∃ u, run (Threads.step b) s (List.replicate k .main) = some u ∧
      u.busy = false ∧ u.main = s.main ∧ u.abs = P.loadResults := by
  induction hk : (s.workers 0).mOutput.reader.rank using Nat.strong_induction_on generalizing s with
  | _ k ih =>
    have hstep : Threads.step b s .main = some (s.loadStep 0 id) := by
      unfold Threads.step Threads.mainStep
      simp only [hpc]
      exact if_neg hr
    have hmain : (s.loadStep 0 id).main = s.main := by
      rw [loadStep_eq]
      rfl
    have hout : ((s.loadStep 0 id).workers 0).mOutput = Tx.readerStep (s.workers 0).mOutput := by
      rw [loadStep_eq, worker_self]
    have hlt : ((s.loadStep 0 id).workers 0).mOutput.reader.rank < k := by
      rw [hout, ← hk]
      exact Tx.readerStep_rank_pc hr
    have habs' := h.loadResults_simulates hn
    rw [← hout] at habs'
    obtain ⟨hret, hgo, -⟩ := Tx.output_readerStep (h.worker 0).tx
    rw [← hout] at hret hgo
    by_cases hidle : ((s.loadStep 0 id).workers 0).mOutput.reader = .idle
    · have hl : (s.workers 0).mOutput.loaded = true := by
        by_contra hno
        exact hgo (Bool.eq_false_iff.2 hno) hidle
      rw [if_neg (Bool.eq_false_iff.1 (not_loaded_of_idle hidle)), habs, if_pos hl] at habs'
      refine ⟨1, by omega, s.loadStep 0 id, run_cons_eq_some.2 ⟨_, hstep, rfl⟩, ?_, hmain, habs'⟩
      unfold Threads.busy
      rw [hmain, hpc, hidle]
      rfl
    · have hl : ¬ (s.workers 0).mOutput.loaded = true := fun hl => hidle (hret hl)
      rw [habs, if_neg hl] at habs'
      obtain ⟨j, hj, u, hrun, hb, hm, hu⟩ := ih _ hlt (h.step hstep) (hmain.symm ▸ hpc) (hmain.symm ▸ hn) hidle habs' rfl
      exact ⟨j + 1, by omega, u, run_cons_eq_some.2 ⟨_, hstep, hrun⟩, hb, hm.trans hmain, hu⟩

theorem loadResults_returns (h : ThreadsOk s) (hb : s.busy = false) (hn : 0 < s.main.mWorkersSize) :
    ∃ k ≤ 4, ∃ u, run (Threads.step b) s (.call .loadResults :: List.replicate k .main) = some u ∧ u.busy = false ∧
      u.main = s.main ∧ u.abs = s.abs.loadResults := by
  obtain ⟨hpc, hr⟩ := not_busy hb
  have hcall : s.call .loadResults = s.loadStep 0 id := if_neg hn.ne'
  have hstep : Threads.step b s (.call .loadResults) = some (s.loadStep 0 id) := by
    unfold Threads.step
    simp only [hb, hcall]
    rfl
  have hmain : (s.loadStep 0 id).main = s.main := by
    rw [loadStep_eq]
    rfl
  have hout : ((s.loadStep 0 id).workers 0).mOutput = Tx.readerStep (s.workers 0).mOutput := by
    rw [loadStep_eq, worker_self]
  have habs := h.loadResults_simulates hn
  have hbegan : ((s.loadStep 0 id).workers 0).mOutput.reader =
      .began ((s.workers 0).mOutput.tx.mTicks (s.workers 0).mOutput.tx.mRead) := by
    rw [hout, Tx.readerStep, hr]
  rw [← hout] at habs
  obtain ⟨k, hk, u, hrun, hb, hm, hu⟩ := load_returns (b := b) (h.step hstep) (hmain.symm ▸ hpc) (hmain.symm ▸ hn)
    (by simp [hbegan]) habs
  rw [hbegan] at hk
  exact ⟨k, hk, u, run_cons_eq_some.2 ⟨_, hstep, hrun⟩, hb, hm.trans hmain, hu⟩

end ThreadsOk

/-- **Every search of the threads ends and shows its matches**: from every state of every run that starts the workers before
the first commit and whose queries have no NUL, whatever the threads do until none can go on, the results then loaded are
those of the query and the items, if the items are committed. -/
theorem threads_search_completes (b : Build) (hardwareConcurrency : ℕ) (pre post bs : List Threads.Action) (s t : Threads)
    (hpre : ∀ a ∈ pre, a.Prepares) (hpost : ∀ a ∈ post, a.NoStop)
    (hnul : ∀ a ∈ pre ++ .call .start :: post, a.NulFree)
    (hrun : run (Threads.step b) (Threads.init hardwareConcurrency) (pre ++ .call .start :: post) = some s)
    (hcommitted : s.main.mJob.mItems.length = s.main.mItems.length) (hn : s.main.mItems.length < 2 ^ 32)
    (hown : ∀ a ∈ bs, a.Own) (hgo : run (Threads.step b) s bs = some t)
    (hstuck : Stuck (Threads.step b) Threads.Action.Internal t) :
    ∃ k ≤ 4, ∃ u, run (Threads.step b) t (.call .loadResults :: List.replicate k .main) = some u ∧ u.busy = false ∧
      u.main.mItems = s.main.mItems ∧ u.main.mQuery = s.main.mQuery ∧ u.own.processing = false ∧ UpToDate b u.own := by
  have howned : ∀ a : Threads.Action, a.Own → a.NoStop ∧ a.NulFree := by
    intro a ha
    cases a with
    | call c => exact ha.elim
    | _ => exact ⟨trivial, trivial⟩
  have hpost' : ∀ a ∈ post ++ bs, a.NoStop := by
    intro a ha
    exact (List.mem_append.1 ha).elim (hpost a) (fun ha => (howned a (hown a ha)).1)
  have hrun' : run (Threads.step b) (Threads.init hardwareConcurrency) (pre ++ .call .start :: (post ++ bs)) = some t := by
    rw [← List.cons_append, ← List.append_assoc]
    exact run_append_eq_some.2 ⟨s, hrun, hgo⟩
  have hs := run_threadsQuiet hnul hrun
  have ht : ThreadsQuiet t :=
    run_inv_on _ ThreadsQuiet (fun _ _ _ ha h hs => h.step (howned _ ha).2 hs) bs s t hown hs hgo
  -- The pool is at rest, and has the results of its job.
  have hrest := ht.stuck_iff.1 hstuck
  have hrest' : AtRest t.abs := ht.quiet.atRest_iff.1 (ht.ok.stuck_abs hstuck)
  obtain ⟨pre', post', hpre', hpost', -, habs⟩ := threads_start hpre hpost' hrun'
  obtain ⟨hl, hc⟩ := live_run (ContentInv b) (fun _ hp => hp.contentInv) (fun _ _ hl h hs => hs.contentInv hl h)
    hpre' hpost' habs
  have hsame : ∀ u a v, a.Own → ThreadsOk u ∧ u.main.mItems = s.main.mItems ∧ u.main.mQuery = s.main.mQuery ∧
      u.main.mJob = s.main.mJob → Threads.step b u a = some v → ThreadsOk v ∧ v.main.mItems = s.main.mItems ∧
      v.main.mQuery = s.main.mQuery ∧ v.main.mJob = s.main.mJob := by
    intro u a v ha h hs
    refine ⟨h.1.step hs, ?_⟩
    rw [h.1.internal_main ha hs]
    exact h.2
  obtain ⟨-, hitems, hquery, hjob⟩ := run_inv_on _ _ hsame bs s t hown ⟨hs.ok, rfl, rfl, rfl⟩ hgo
  have hcommitted' : t.abs.main.mJob.mItems.length = t.abs.main.mItems.length := by
    change t.main.mJob.mItems.length = t.main.mItems.length
    rw [hjob, hitems, hcommitted]
  have hn' : t.abs.main.mItems.length < 2 ^ 32 := by
    change t.main.mItems.length < 2 ^ 32
    rw [hitems]
    exact hn
  obtain ⟨hproc, hup⟩ := hrest'.upToDate hl hc (run_queries habs) hcommitted' hn'
  obtain ⟨k, hk, u, hload, hb, hm, hu⟩ := ht.ok.loadResults_returns (b := b) hrest.busy hl.pos
  have hshown := sameShown_abs hb
  rw [hu] at hshown
  refine ⟨k, hk, u, hload, hb, ?_, ?_, hshown.processing.trans hproc, hshown.upToDate hup⟩
  · rw [hm, hitems]
  · rw [hm, hquery]

theorem threads_search_completes_sample : ∃ k ≤ 4, ∃ u, run (Threads.step .scalar) Threads.asleep
    (.call .loadResults :: List.replicate k .main) = some u ∧ u.own.processing = false ∧ UpToDate .scalar u.own := by
  have hgo : run (Threads.step .scalar) Threads.asleep [] = some Threads.asleep := rfl
  obtain ⟨k, hk, u, hu, -, -, -, hproc, hup⟩ := threads_search_completes .scalar 2 Threads.samplePre Threads.sampleSearch []
    Threads.asleep Threads.asleep Threads.samplePre_prepares Threads.sampleSearch_noStop Threads.sample_nulFree
    Threads.asleep_run (by decide +kernel) (by decide +kernel) nofun hgo
    ((run_threadsQuiet Threads.sample_nulFree Threads.asleep_run).stuck_iff.2 Threads.asleep_atRest)
  exact ⟨k, hk, u, hu, hproc, hup⟩

end Fzx
