import Fzx.PoolWake
/-!
# PoolRuns — every run of the pool

`RunOk` holds after any calls in any order, with workers that come and go (`run_ok`).  It says which jobs there are, so
that a chunk counter is of one job only (`jobs_consistent`).  Workers that are started after a commit are not told of
its job; the others know the current job throughout (`allKnow_iff`).
-/
namespace Fzx

open Lib

structure RunOk (s : Pool) : Prop where
  jobs : JobsOk s.main
  threads : 0 < s.main.mThreads ∧ s.main.mThreads ≤ 64
  size : s.main.mWorkersSize ≤ 64
  stopping : ∀ k, s.main.mRunning = true → s.main.pc ≠ .stopping k
  joining : ∀ k, s.main.mRunning = true → s.main.pc ≠ .joining k
  stamp : ∀ w, StampOk s.main (s.workers w)
  query : ∀ w, (s.workers w).pc.matching → (s.workers w).job.mQuery.isSome = true

/-! ## The number of threads -/

theorem commit_mThreads (s : Pool) : s.commit.main.mThreads = s.main.mThreads := by
  grind [Pool.commit, Pool.renewQueue, Pool.setJob]

theorem call_mThreads (s : Pool) (c : Call) :
    (s.call c).main.mThreads = s.main.mThreads ∨ ∃ threads, (s.call c).main.mThreads = clampThreads threads := by
  cases c with
  | setThreads threads => exact .inr ⟨threads, rfl⟩
  | start => grind [Pool.call, Pool.start]
  | stop => grind [Pool.call, Pool.stop]
  | pushItem str => grind [Pool.call, Pool.pushItem]
  | setQuery query => grind [Pool.call, Pool.setQuery, Pool.withQuery, commit_mThreads]
  | commit => exact .inl (commit_mThreads s)
  | loadResults => grind [Pool.call, Pool.loadResults, Pool.setWorker]

/-- Outside its calls the main thread changes only where it is, and at the end of `stop` the number of workers. -/
theorem mainStep_main {s s' : Pool} (h : s.mainStep = some s') :
    s'.main = { s.main with pc := s'.main.pc, mWorkersSize := s'.main.mWorkersSize } := by
  unfold Pool.mainStep at h
  grind [Pool.setWorker]

theorem step_call_or_main {b : Build} {s s' : Pool} {a : Pool.Action} (hn : s.main.mWorkersSize ≤ 64)
    (h : s.step b a = some s') : (∃ c, a = .call c ∧ s' = s.call c) ∨
      s'.main = { s.main with pc := s'.main.pc, mWorkersSize := s'.main.mWorkersSize } := by
  unfold Pool.step at h
  cases a with
  | call c =>
    simp only at h
    split at h
    · exact .inl ⟨c, rfl, (Option.some.inj h).symm⟩
    · cases h
  | main => exact .inr (mainStep_main h)
  | worker w back =>
    simp only at h
    split at h
    · rename_i hw
      right
      rw [(workerStep_cases (hw.trans_le hn) h).main]
    · cases h

theorem step_mThreads {b : Build} {s s' : Pool} {a : Pool.Action} (hn : s.main.mWorkersSize ≤ 64)
    (h : s.step b a = some s') :
    s'.main.mThreads = s.main.mThreads ∨ ∃ threads, s'.main.mThreads = clampThreads threads := by
  rcases step_call_or_main hn h with ⟨c, _, rfl⟩ | he
  · exact call_mThreads s c
  · exact .inl (by rw [he])

/-! ## The steps -/

theorem query_startMatch {W : Worker} (h : W.startMatch.pc.matching) : W.startMatch.job.mQuery.isSome = true := by
  change W.job.mQuery.isSome = true
  unfold Worker.startMatch at h
  cases hq : W.job.mQuery with
  | none =>
    simp only [hq] at h
    exact h.elim
  | some q => rfl

theorem matching_enterMerge (W : Worker) : ¬ W.enterMerge.pc.matching := by
  unfold Worker.enterMerge Worker.goto
  split <;> exact id

theorem query_react {m : Main} {W : Worker} (hm : HistoryOk m) (hst : StampOk m W) (ev : EventSet)
    {goOn : Worker → Worker} (hgo : (goOn W).pc.matching → (goOn W).job.mQuery.isSome = true)
    (h : (W.react m.mJob ev goOn).pc.matching) : (W.react m.mJob ev goOn).job.mQuery.isSome = true := by
  rcases react_cases hm hst ev goOn with ⟨_, he⟩ | ⟨_, he⟩ | ⟨_, he⟩
  · rw [he] at h
    exact h.elim
  · rw [he] at h ⊢
    exact hgo h
  · rw [he] at h ⊢
    exact query_startMatch h

theorem SelfStep.query {b : Build} {s : Pool} {back : Results} {W W' : Worker} (hm : HistoryOk s.main)
    (hst : StampOk s.main W) (hq : W.pc.matching → W.job.mQuery.isSome = true) (h : SelfStep b s back W W')
    (hpc' : W'.pc.matching) : W'.job.mQuery.isSome = true := by
  cases h with
  | own ho =>
    cases ho with
    | wake _ => exact hpc'.elim
    | woken _ => exact query_react hm hst _ (fun h => absurd h (matching_enterMerge W)) hpc'
    | chunk hpc _ _ => exact hq (by rw [hpc]; trivial)
    | get hpc => exact hq (by rw [hpc]; trivial)
    | got hpc =>
      have hW := hq (by rw [hpc]; trivial)
      exact query_react hm hst _ (fun _ => hW) hpc'
    | skip _ _ _ => exact hpc'.elim
    | mergeEnd _ _ =>
      unfold Worker.goto at hpc'
      split at hpc' <;> exact hpc'.elim
    | merging _ =>
      rcases mergeChild_cases W _ (s.workers (W.mergeState.child _)).mOutput.readBuffer with ⟨_, he⟩ | ⟨_, he⟩ | ⟨_, he⟩ <;>
        · rw [he] at hpc'
          exact hpc'.elim
    | already _ _ => exact hpc'.elim
    | publish _ _ => exact hpc'.elim
  | chunk hpc _ _ => exact hq (by rw [hpc]; trivial)
  | sort _ => exact absurd hpc' (matching_enterMerge _)
  | load _ => exact hpc'.elim
  | notified _ => exact hpc'.elim

/-- What the main thread does to the workers keeps what is known of them. -/
theorem RunOk.touched {s s' : Pool} (h : RunOk s) (hm : s.main.history ⊆ s'.main.history) {w : ℕ}
    (ht : Touched (s.workers w) (s'.workers w)) : StampOk s'.main (s'.workers w) ∧
      ((s'.workers w).pc.matching → (s'.workers w).job.mQuery.isSome = true) := by
  refine ⟨(ht.stampOk (h.stamp w)).mono hm, ?_⟩
  rw [ht.pc, ht.job_eq]
  exact h.query w

theorem JobsOk.congr {m m' : Main} (h : JobsOk m) (hj : m'.jobs = m.jobs) (hJ : m'.mJob = m.mJob)
    (hq : m'.mQuery = m.mQuery) (hp : m'.mQueue = m.mQueue) (hi : m'.mItems = m.mItems)
    (ha : m'.nextQuery = m.nextQuery) (hn : m'.nextQueue = m.nextQueue) : JobsOk m' where
  increasing := by unfold Main.history; rw [hj]; exact h.increasing
  current := by unfold Main.history; rw [hj, hJ]; exact h.current
  ok := by unfold Main.history; rw [hj, hn]; exact h.ok
  query := by rw [hq, hJ]; exact h.query
  queue := by rw [hp, hJ]; exact h.queue
  items := by rw [hJ, hi]; exact h.items
  addrLt := by rw [hq, ha]; exact h.addrLt

theorem LiveStep.runOk {b : Build} {s s' : Pool} (h : RunOk s) (ht : 0 < s'.main.mThreads ∧ s'.main.mThreads ≤ 64)
    (hs : LiveStep b s s') : RunOk s' := by
  have hkeep : (∀ w, StampOk s'.main (s'.workers w) ∧
      ((s'.workers w).pc.matching → (s'.workers w).job.mQuery.isSome = true)) := by
    intro w
    rcases hs.touched_or_worker with ⟨htou, hm, _⟩ | ⟨u, back, _, hu⟩
    · exact h.touched hm (htou w)
    · by_cases hw : w = u
      · subst hw
        refine ⟨?_, hu.self.query h.jobs.toHistoryOk (h.stamp w) (h.query w)⟩
        rw [hu.main]
        exact hu.self.stampOk h.jobs.toHistoryOk (h.stamp w)
      · exact h.touched (by rw [hu.main]; exact List.Subset.refl _) (hu.touched hw)
  have hstamp := fun w => (hkeep w).1
  have hquery := fun w => (hkeep w).2
  cases hs with
  | newJob hn =>
    exact ⟨hn.ok, ht, hn.mWorkersSize ▸ h.size, fun k _ => by simp [hn.pc], fun k _ => by simp [hn.pc], hstamp, hquery⟩
  | quiet hq =>
    exact ⟨hq.jobsOk h.jobs, ht, hq.mWorkersSize ▸ h.size, by rw [hq.pc, hq.mRunning]; exact h.stopping,
      by rw [hq.pc, hq.mRunning]; exact h.joining, hstamp, hquery⟩
  | loadResults => exact ⟨h.jobs, ht, h.size, h.stopping, h.joining, hstamp, hquery⟩
  | post _ _ => exact ⟨h.jobs.congr rfl rfl rfl rfl rfl rfl rfl, ht, h.size, nofun, nofun, hstamp, hquery⟩
  | posted _ _ => exact ⟨h.jobs.congr rfl rfl rfl rfl rfl rfl rfl, ht, h.size, nofun, nofun, hstamp, hquery⟩
  | worker _ hw =>
    have hm := hw.main
    exact ⟨hm.symm ▸ h.jobs, ht, hm.symm ▸ h.size, hm.symm ▸ h.stopping, hm.symm ▸ h.joining, hstamp, hquery⟩

/-- Where the workers do not run, only the event words of the workers are still written. -/
theorem RunOk.stop {s s' : Pool} (h : RunOk s) {pc : MainPc} {n : ℕ} (hn : n ≤ 64)
    (hm : s'.main = { s.main with pc := pc, mRunning := false, mWorkersSize := n })
    (hw : ∀ w, s'.workers w = s.workers w ∨
      s'.workers w = { s.workers w with mEvents := { (s.workers w).mEvents with kStop := true } }) : RunOk s' := by
  have hst : ∀ w, StampOk s'.main (s'.workers w) := by
    intro w
    have hw0 := h.stamp w
    rw [hm]
    rcases hw w with he | he <;> rw [he]
    · exact hw0.mono (List.Subset.refl _)
    · exact ⟨hw0.job, hw0.lastItems, hw0.lastQuery, hw0.out, hw0.committed, hw0.committedLe, hw0.readLe, hw0.matching,
        hw0.notify⟩
  have hq : ∀ w, (s'.workers w).pc.matching → (s'.workers w).job.mQuery.isSome = true := by
    intro w
    rcases hw w with he | he <;> rw [he]
    · exact h.query w
    · exact h.query w
  rw [hm] at hst
  refine ⟨?_, ?_, ?_, ?_, ?_, by rwa [hm], hq⟩ <;> rw [hm]
  · exact h.jobs.congr rfl rfl rfl rfl rfl rfl rfl
  · exact h.threads
  · exact hn
  · exact nofun
  · exact nofun

theorem StopStep.runOk {s s' : Pool} (h : RunOk s) (hs : StopStep s s') : RunOk s' := by
  cases hs with
  | @post k hpc _ =>
    have hr : s.main.mRunning = false := Bool.eq_false_iff.2 (fun hr => h.stopping k hr hpc)
    refine h.stop (n := s.main.mWorkersSize) h.size (by rw [← hr]) (fun w => ?_)
    by_cases hw : w = k
    · subst hw
      exact .inr (setWorker_self ..)
    · exact .inl (setWorker_other hw _)
  | @posted k hpc _ =>
    have hr : s.main.mRunning = false := Bool.eq_false_iff.2 (fun hr => h.stopping k hr hpc)
    exact h.stop (n := s.main.mWorkersSize) h.size (by rw [← hr]) (fun w => .inl rfl)
  | @join k hpc _ _ =>
    have hr : s.main.mRunning = false := Bool.eq_false_iff.2 (fun hr => h.joining k hr hpc)
    exact h.stop (n := s.main.mWorkersSize) h.size (by rw [← hr]) (fun w => .inl rfl)
  | @joined k hpc _ =>
    have hr : s.main.mRunning = false := Bool.eq_false_iff.2 (fun hr => h.joining k hr hpc)
    exact h.stop (Nat.zero_le 64) (by rw [← hr]) (fun w => .inl rfl)

theorem runOk_init (hardwareConcurrency : ℕ) : RunOk (Pool.init hardwareConcurrency) :=
  ⟨jobsOk_init _, clampThreads_spec _, Nat.zero_le 64, nofun, nofun, fun w => stampOk_new _ w 0, nofun⟩

/-- **Every step of the pool keeps it well-formed.** -/
theorem RunOk.step {b : Build} {s s' : Pool} {a : Pool.Action} (h : RunOk s) (hs : s.step b a = some s') : RunOk s' := by
  have ht : 0 < s'.main.mThreads ∧ s'.main.mThreads ≤ 64 := by
    rcases step_mThreads h.size hs with he | ⟨threads, he⟩
    · exact he ▸ h.threads
    · exact he ▸ clampThreads_spec threads
  cases step_cases h.jobs h.size hs with
  | live hl => exact hl.runOk h ht
  | start hpc _ =>
    exact ⟨h.jobs.congr rfl rfl rfl rfl rfl rfl rfl, h.threads, h.threads.2, fun k _ hk => (by cases hpc.symm.trans hk),
      fun k _ hk => (by cases hpc.symm.trans hk), fun w => stampOk_new _ w _, nofun⟩
  | stop _ _ => exact h.stop (n := s.main.mWorkersSize) h.size rfl (fun w => .inl rfl)
  | stopping hs => exact hs.runOk h

theorem run_ok {b : Build} {hardwareConcurrency : ℕ} {as : List Pool.Action} {s : Pool}
    (hr : run (Pool.step b) (Pool.init hardwareConcurrency) as = some s) : RunOk s :=
  run_inv RunOk (fun _ _ _ h hs => h.step hs) as _ s (runOk_init _) hr

/-! ## The jobs -/

/-- **A step's job is no older than the one before it**, and newer where the workers are notified. -/
theorem RunOk.tick_le {b : Build} {s s' : Pool} {a : Pool.Action} (h : RunOk s) (hs : s.step b a = some s') :
    s.main.mJob.tick ≤ s'.main.mJob.tick ∧
      (s.main.pc = .idle → s'.main.pc = .posting 0 → s.main.mJob.tick < s'.main.mJob.tick) := by
  cases step_cases h.jobs h.size hs with
  | live hl =>
    cases hl with
    | newJob hn =>
      have hlt := (hn.before _ h.jobs.current_mem).tick
      exact ⟨hlt.le, fun _ _ => hlt⟩
    | quiet hq => exact ⟨by rw [hq.mJob], fun hi hp => by cases hi.symm.trans (hq.pc.symm.trans hp)⟩
    | loadResults => exact ⟨le_rfl, fun hi hp => by cases hi.symm.trans hp⟩
    | post hpc _ => exact ⟨le_rfl, fun hi _ => by cases hi.symm.trans hpc⟩
    | posted hpc _ => exact ⟨le_rfl, fun hi _ => by cases hi.symm.trans hpc⟩
    | worker _ hw => exact ⟨by rw [hw.main], fun hi hp => by rw [hw.main] at hp; cases hi.symm.trans hp⟩
  | start hpc _ => exact ⟨le_rfl, fun _ hp => by cases hpc.symm.trans hp⟩
  | stop _ _ => exact ⟨le_rfl, fun _ hp => by cases hp⟩
  | stopping hs =>
    cases hs with
    | post _ _ => exact ⟨le_rfl, fun _ hp => by cases hp⟩
    | posted _ _ => exact ⟨le_rfl, fun _ hp => by cases hp⟩
    | join _ _ _ => exact ⟨le_rfl, fun _ hp => by cases hp⟩
    | joined _ _ => exact ⟨le_rfl, fun _ hp => by cases hp⟩

/-- **The jobs of every run are consistent**, after every step of every call: the query is null or not empty, a job has a
chunk counter exactly when it has a query (and so has the job that a worker matches), the ticks of the job only grow and
one of them does where the workers are notified, and two jobs with one chunk counter are the same work. -/
theorem jobs_consistent (b : Build) (hardwareConcurrency : ℕ) (as : List Pool.Action) (s : Pool)
    (hrun : run (Pool.step b) (Pool.init hardwareConcurrency) as = some s) :
    (s.main.mQuery = none ∨ ∃ q, s.main.mQuery = some q ∧ q.val.empty = false) ∧
      (s.main.mJob.mQuery = none ↔ s.main.mJob.mQueue = none) ∧
      (∀ w, (s.workers w).pc = .take → (s.workers w).job.mQueue ≠ none) ∧
      (∀ a s', s.step b a = some s' →
        s.main.mJob.mItems.length ≤ s'.main.mJob.mItems.length ∧ s.main.mJob.mQueryTick ≤ s'.main.mJob.mQueryTick ∧
        (s.main.pc = .idle → s'.main.pc = .posting 0 →
          s.main.mJob.mItems.length < s'.main.mJob.mItems.length ∨ s.main.mJob.mQueryTick < s'.main.mJob.mQueryTick)) ∧
      ∀ J ∈ s.main.jobs, ∀ J' ∈ s.main.jobs, ∀ p, J.mQueue = some p → J'.mQueue = some p →
        J.mItems.length = J'.mItems.length ∧ J.mQueryTick = J'.mQueryTick ∧ J.mQuery = J'.mQuery := by
  have h := run_ok hrun
  have hok := h.jobs.ok
  refine ⟨?_, ?_, fun w hpc hq => ?_, fun a s' hs => ?_, fun J hJ J' hJ' p hp hp' => ?_⟩
  · rw [h.jobs.query]
    cases hq : s.main.mJob.mQuery with
    | none => exact .inl rfl
    | some q => exact .inr ⟨q, rfl, (hok _ h.jobs.current_mem).nonempty q hq⟩
  · rw [← Option.isNone_iff_eq_none, ← Option.isNone_iff_eq_none, ← Option.not_isSome, ← Option.not_isSome,
      (hok _ h.jobs.current_mem).queue]
  · have hsome := h.query w (by rw [hpc]; trivial)
    rw [← (hok _ (h.stamp w).job).queue, hq] at hsome
    cases hsome
  · obtain ⟨hle, hlt⟩ := h.tick_le hs
    refine ⟨hle.1, hle.2, fun hi hp => ?_⟩
    rcases Prod.lt_iff.1 (hlt hi hp) with ⟨h, _⟩ | ⟨_, h⟩
    · exact .inl h
    · exact .inr h
  · obtain rfl := h.jobs.eq_of_queue (List.mem_cons_of_mem _ hJ) (List.mem_cons_of_mem _ hJ') hp hp'
    exact ⟨rfl, rfl, rfl⟩

theorem jobs_consistent_sample : sample.main.mJob.mQuery = none ↔ sample.main.mJob.mQueue = none :=
  (jobs_consistent .scalar 2 (samplePre ++ .call .start :: samplePost) sample sample_run).2.1

/-! ## Who knows the job -/

/-- Worker `w` has loaded a job with the ticks of the current one, or a `kJob` event is pending for it (also where it has
just got the event), or no job was committed. -/
def Knows (s : Pool) (w : ℕ) : Prop :=
  ((s.workers w).job.mItems.length = s.main.mJob.mItems.length ∧ (s.workers w).job.mQueryTick = s.main.mJob.mQueryTick) ∨
    (s.workers w).mEvents.kJob = true ∨ (s.workers w).pc.sawJob = true ∨ s.main.jobs = []

/-- Where workers run and no commit is in progress, each knows the job. -/
def AllKnow (s : Pool) : Prop :=
  s.main.mRunning = true → (∀ k, s.main.pc ≠ .posting k) → ∀ w < s.main.mWorkersSize, Knows s w

/-- Workers are started before the first job only. -/
def StartsFirst (s : Pool) (a : Pool.Action) : Prop :=
  a = .call .start → s.main.mRunning = false → s.main.jobs = []

structure KnowInv (s : Pool) : Prop where
  ok : RunOk s
  live : s.main.mRunning = true → Live s
  aware : s.main.mRunning = true → ∀ w < s.main.mWorkersSize, Aware s w

theorem KnowInv.allKnow {s : Pool} (h : KnowInv s) : AllKnow s := by
  intro hr hpc w hw
  rcases h.aware hr w hw with hj | he | ⟨k, _, hk⟩ | hs
  · exact .inl ⟨by rw [hj], by rw [hj]⟩
  · exact .inr (.inl he)
  · exact absurd hk (hpc k)
  · exact .inr (.inr (.inl hs))

theorem knowInv_init (hardwareConcurrency : ℕ) : KnowInv (Pool.init hardwareConcurrency) :=
  ⟨runOk_init _, nofun, nofun⟩

theorem LiveStep.mRunning {b : Build} {s s' : Pool} (h : LiveStep b s s') : s'.main.mRunning = s.main.mRunning := by
  cases h with
  | newJob h => exact h.mRunning
  | quiet h => exact h.mRunning
  | loadResults => rfl
  | post _ _ => rfl
  | posted _ _ => rfl
  | worker _ h => rw [h.main]

theorem StopStep.mRunning {s s' : Pool} (h : StopStep s s') : s'.main.mRunning = s.main.mRunning := by
  cases h <;> rfl

theorem StopStep.not_running {s s' : Pool} (hs : RunOk s) (h : StopStep s s') : s.main.mRunning = false := by
  refine Bool.eq_false_iff.2 (fun hr => ?_)
  cases h with
  | post hpc _ => exact hs.stopping _ hr hpc
  | posted hpc _ => exact hs.stopping _ hr hpc
  | join hpc _ _ => exact hs.joining _ hr hpc
  | joined hpc _ => exact hs.joining _ hr hpc

theorem LiveStep.mWorkersSize {b : Build} {s s' : Pool} (h : LiveStep b s s') :
    s'.main.mWorkersSize = s.main.mWorkersSize := by
  rcases h.touched_or_worker with ⟨_, _, hn⟩ | ⟨_, _, _, hw⟩
  · exact hn
  · rw [hw.main]

theorem KnowInv.step {b : Build} {s s' : Pool} {a : Pool.Action} (h : KnowInv s) (ha : StartsFirst s a)
    (hs : s.step b a = some s') : KnowInv s' := by
  have hok := h.ok.step hs
  cases step_cases h.ok.jobs h.ok.size hs with
  | live hl =>
    refine ⟨hok, fun hr => ?_, fun hr w hw => ?_⟩ <;> rw [hl.mRunning] at hr
    · exact hl.live (h.live hr)
    · rw [hl.mWorkersSize] at hw
      exact hl.aware (h.live hr) h.ok.stamp hw (h.aware hr w hw)
  | start hpc hr =>
    -- The new workers have the first job, which is still the current one.
    have hj := h.ok.jobs.mJob_eq (ha rfl hr)
    refine ⟨hok, fun _ => ?_, fun _ w _ => .inl hj.symm⟩
    exact { jobs := hok.jobs, running := rfl, stopping := fun k => hok.stopping k rfl,
            joining := fun k => hok.joining k rfl, pos := h.ok.threads.1, size := h.ok.threads.2,
            runs := fun w => ⟨rfl, trivial⟩ }
  | stop _ _ => exact ⟨hok, nofun, nofun⟩
  | stopping hst =>
    have hr : s'.main.mRunning ≠ true := by
      rw [hst.mRunning, hst.not_running h.ok]
      exact Bool.false_ne_true
    exact ⟨hok, fun h => absurd h hr, fun h => absurd h hr⟩

/-- **Workers that are started after a commit do not know the job.** -/
theorem startsFirst_of_allKnow {b : Build} {s s' : Pool} {a : Pool.Action} (h : RunOk s) (hs : s.step b a = some s')
    (hg : AllKnow s') : StartsFirst s a := by
  rintro rfl hr
  by_contra hj
  unfold Pool.step at hs
  simp only at hs
  split at hs
  · rename_i hpc
    have he : s' = _ := (Option.some.inj hs).symm.trans (show s.start = _ by
      unfold Pool.start
      rw [hr, if_neg Bool.false_ne_true])
    subst he
    rcases hg rfl (fun k hk => by cases hpc.symm.trans hk) 0 h.threads.1 with ⟨hi, hq⟩ | he | he | he
    · exact (h.jobs.tick_pos hj).ne (Prod.ext hi hq)
    · cases he
    · cases he
    · exact hj he
  · cases hs

/-- **Every worker knows the job in every state of a run exactly when workers are started before the first commit
only.** -/
theorem allKnow_iff (b : Build) (hardwareConcurrency : ℕ) (as : List Pool.Action) :
    (∀ pre s, pre <+: as → run (Pool.step b) (Pool.init hardwareConcurrency) pre = some s → AllKnow s) ↔
      Meets (Pool.step b) StartsFirst (Pool.init hardwareConcurrency) as :=
  meets_iff (fun _ h => h.allKnow) (fun _ _ _ h ha hs => h.step ha hs) (fun _ _ _ h hs => startsFirst_of_allKnow h.ok hs)
    as _ (knowInv_init _)

/-- An item is pushed and committed, and then the workers are started: they sleep and nothing will wake them. -/
theorem allKnow_fails : ∃ s, run (Pool.step .scalar) (Pool.init 1)
    [.call (.pushItem [97]), .call .commit, .main, .call .start] = some s ∧ AtRest s ∧ ¬ AllKnow s := by
  refine ⟨_, rfl, ?_, fun h => ?_⟩
  · unfold AtRest
    decide
  · rcases h rfl nofun 0 (by decide) with h | h | h | h
    · exact absurd h.1 (by decide)
    · cases h
    · cases h
    · cases h

end Fzx
