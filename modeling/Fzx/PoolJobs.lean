import Fzx.Pool
/-!
# PoolJobs — the jobs the main thread commits

Each job committed is newer than the ones before it, has items and a query tick that only grow, and a chunk counter of
its own (`JobsOk`).  Nothing but `commit` changes them (`call_cases`), so a job is known by its two ticks
(`HistoryOk.eq_of_tick`).
-/
namespace Fzx

open Lib

/-- A job's two timestamps, in the componentwise order. -/
def Job.tick (J : Job) : ℕ × ℕ := (J.mItems.length, J.mQueryTick)

namespace Job

/-- A job committed later. -/
structure Before (J J' : Job) : Prop where
  tick : J.tick < J'.tick
  queue : ∀ p, J.mQueue = some p → J'.mQueue ≠ some p

/-- A job with a query has a chunk counter, and its query is not empty. -/
structure Ok (nextQueue : ℕ) (J : Job) : Prop where
  nonempty : ∀ q, J.mQuery = some q → q.val.empty = false
  queue : J.mQueue.isSome = J.mQuery.isSome
  queueLt : ∀ p, J.mQueue = some p → p < nextQueue

theorem Ok.mono {J : Job} {n n' : ℕ} (h : J.Ok n) (hn : n ≤ n') : J.Ok n' :=
  ⟨h.nonempty, h.queue, fun p hp => (h.queueLt p hp).trans_le hn⟩

end Job

/-- The values `mJob` has had. -/
def Main.history (m : Main) : List Job := {} :: m.jobs

structure HistoryOk (m : Main) : Prop where
  increasing : m.history.Pairwise Job.Before
  current : m.history.getLast? = some m.mJob
  ok : ∀ J ∈ m.history, J.Ok m.nextQueue

structure JobsOk (m : Main) : Prop extends HistoryOk m where
  query : m.mQuery = m.mJob.mQuery
  queue : m.mQueue = m.mJob.mQueue
  items : m.mJob.mItems <+: m.mItems
  addrLt : ∀ q, m.mQuery = some q → q.addr < m.nextQuery

/-- What holds where `commit` starts: in `setQuery` the query may be a new one. -/
structure PreCommit (m : Main) : Prop extends HistoryOk m where
  query : m.mJob.mQuery.map Shared.addr = m.mQuery.map Shared.addr → m.mQuery = m.mJob.mQuery
  queue : m.mQueue = m.mJob.mQueue
  items : m.mJob.mItems <+: m.mItems
  nonempty : ∀ q, m.mQuery = some q → q.val.empty = false
  addrLt : ∀ q, m.mQuery = some q → q.addr < m.nextQuery

/-! ## The history -/

section

variable {m : Main}

theorem HistoryOk.current_mem (h : HistoryOk m) : m.mJob ∈ m.history := List.mem_of_getLast? h.current

theorem HistoryOk.history_eq (h : HistoryOk m) : m.history = m.history.dropLast ++ [m.mJob] :=
  (List.dropLast_append_getLast? _ h.current).symm

/-- Every job but the current one is before it. -/
theorem HistoryOk.before_current (h : HistoryOk m) {J : Job} (hJ : J ∈ m.history) :
    J = m.mJob ∨ J.Before m.mJob := by
  have hp := h.increasing
  rw [h.history_eq] at hp hJ
  rcases List.mem_append.1 hJ with hJ | hJ
  · exact .inr ((List.pairwise_append.1 hp).2.2 J hJ _ (List.mem_singleton_self _))
  · exact .inl (List.mem_singleton.1 hJ)

theorem HistoryOk.le_current (h : HistoryOk m) {J : Job} (hJ : J ∈ m.history) : J.tick ≤ m.mJob.tick := by
  rcases h.before_current hJ with he | hb
  · rw [he]
  · exact hb.tick.le

theorem HistoryOk.before_or_before (h : HistoryOk m) {J J' : Job} (hJ : J ∈ m.history) (hJ' : J' ∈ m.history)
    (hne : J ≠ J') : J.Before J' ∨ J'.Before J := by
  have hp : m.history.Pairwise (fun J J' => J.Before J' ∨ J'.Before J) := h.increasing.imp Or.inl
  have hsym : Std.Symm (fun J J' : Job => J.Before J' ∨ J'.Before J) := ⟨fun _ _ h => h.symm⟩
  exact hp.forall hJ hJ' hne

/-- **The ticks identify a job.** -/
theorem HistoryOk.eq_of_tick (h : HistoryOk m) {J J' : Job} (hJ : J ∈ m.history) (hJ' : J' ∈ m.history)
    (ht : J.tick = J'.tick) : J = J' := by
  by_contra hne
  rcases h.before_or_before hJ hJ' hne with hB | hB
  · exact hB.tick.ne ht
  · exact hB.tick.ne ht.symm

/-- Two jobs with one chunk counter are the same. -/
theorem HistoryOk.eq_of_queue (h : HistoryOk m) {J J' : Job} (hJ : J ∈ m.history) (hJ' : J' ∈ m.history) {p : ℕ}
    (hp : J.mQueue = some p) (hp' : J'.mQueue = some p) : J = J' := by
  by_contra hne
  rcases h.before_or_before hJ hJ' hne with hB | hB
  · exact hB.queue p hp hp'
  · exact hB.queue p hp' hp

theorem JobsOk.mJob_eq (h : JobsOk m) (hj : m.jobs = []) : m.mJob = {} := by
  have hc := h.current
  unfold Main.history at hc
  rw [hj, List.getLast?_singleton] at hc
  exact (Option.some.inj hc).symm

/-- The first job is before every committed one. -/
theorem JobsOk.tick_pos (h : JobsOk m) (hj : m.jobs ≠ []) : ({} : Job).tick < m.mJob.tick := by
  have hinc := h.increasing
  have hcur := h.current
  unfold Main.history at hinc hcur
  rw [List.getLast?_cons_of_ne_nil hj] at hcur
  exact ((List.pairwise_cons.1 hinc).1 _ (List.mem_of_getLast? hcur)).tick

theorem JobsOk.preCommit (h : JobsOk m) : PreCommit m where
  toHistoryOk := h.toHistoryOk
  query := fun _ => h.query
  queue := h.queue
  items := h.items
  nonempty := fun q hq => (h.ok _ h.current_mem).nonempty q (h.query ▸ hq)
  addrLt := h.addrLt

end

/-! ## commit -/

/-- What a commit that has something new does. -/
structure Commits (s s' : Pool) : Prop where
  jobs : s'.main.jobs = s.main.jobs ++ [s'.main.mJob]
  jobItems : s'.main.mJob.mItems = s.main.mItems
  jobQuery : s'.main.mJob.mQuery = s.main.mQuery
  tick : s.main.mJob.mQueryTick ≤ s'.main.mJob.mQueryTick
  newer : s.main.mJob.mItems.length ≠ s.main.mItems.length ∨ s.main.mJob.mQueryTick < s'.main.mJob.mQueryTick
  queue : s'.main.mQueue = s'.main.mJob.mQueue
  queueIsSome : s'.main.mJob.mQueue.isSome = s.main.mQuery.isSome
  fresh : ∀ p, s'.main.mJob.mQueue = some p → p = s.main.nextQueue ∧ s'.queues p = {} ∧ p < s'.main.nextQueue
  nextQueue : s.main.nextQueue ≤ s'.main.nextQueue
  queues : ∀ p < s.main.nextQueue, s'.queues p = s.queues p
  pc : s'.main.pc = .posting 0
  mItems : s'.main.mItems = s.main.mItems
  mQuery : s'.main.mQuery = s.main.mQuery
  nextQuery : s'.main.nextQuery = s.main.nextQuery
  mRunning : s'.main.mRunning = s.main.mRunning
  mWorkersSize : s'.main.mWorkersSize = s.main.mWorkersSize
  workers : s'.workers = s.workers

/-- What renewing the queue changes, also where a null queue stays null. -/
structure Renews (s s' : Pool) : Prop where
  mItems : s'.main.mItems = s.main.mItems
  mQuery : s'.main.mQuery = s.main.mQuery
  mJob : s'.main.mJob = s.main.mJob
  jobs : s'.main.jobs = s.main.jobs
  nextQuery : s'.main.nextQuery = s.main.nextQuery
  mRunning : s'.main.mRunning = s.main.mRunning
  mWorkersSize : s'.main.mWorkersSize = s.main.mWorkersSize
  queueIsSome : s'.main.mQueue.isSome = s.main.mQuery.isSome
  fresh : ∀ p, s'.main.mQueue = some p → p = s.main.nextQueue ∧ s'.queues p = {} ∧ p < s'.main.nextQueue
  nextQueue : s.main.nextQueue ≤ s'.main.nextQueue
  queues : ∀ p < s.main.nextQueue, s'.queues p = s.queues p
  workers : s'.workers = s.workers

theorem renews_renewQueue (s : Pool) : Renews s s.renewQueue := by
  unfold Pool.renewQueue
  split
  · rename_i h
    exact { mItems := rfl, mQuery := rfl, mJob := rfl, jobs := rfl, nextQuery := rfl, mRunning := rfl,
            mWorkersSize := rfl, queueIsSome := by simp [h], fresh := by simp, nextQueue := Nat.le_succ _,
            queues := fun p hp => Function.update_of_ne (Nat.ne_of_lt hp) _ _, workers := rfl }
  · rename_i h
    exact { mItems := rfl, mQuery := rfl, mJob := rfl, jobs := rfl, nextQuery := rfl, mRunning := rfl,
            mWorkersSize := rfl, queueIsSome := by simpa using h, fresh := by simp, nextQueue := le_rfl,
            queues := fun _ _ => rfl, workers := rfl }

theorem renews_self {s : Pool} (hq : s.main.mQuery = none) (hp : s.main.mQueue = none) : Renews s s where
  mItems := rfl
  mQuery := rfl
  mJob := rfl
  jobs := rfl
  nextQuery := rfl
  mRunning := rfl
  mWorkersSize := rfl
  queueIsSome := by rw [hq, hp]; rfl
  fresh := by simp [hp]
  nextQueue := le_rfl
  queues := fun _ _ => rfl
  workers := rfl

theorem Renews.commits {s s' : Pool} (h : Renews s s') {job : Job} (hi : job.mItems = s.main.mItems)
    (hq : job.mQuery = s.main.mQuery) (hp : job.mQueue = s'.main.mQueue)
    (ht : s.main.mJob.mQueryTick ≤ job.mQueryTick)
    (hn : s.main.mJob.mItems.length ≠ s.main.mItems.length ∨ s.main.mJob.mQueryTick < job.mQueryTick) :
    Commits s (s'.setJob job) where
  jobs := by change s'.main.jobs ++ [job] = _; rw [h.jobs]; rfl
  jobItems := hi
  jobQuery := hq
  tick := ht
  newer := hn
  queue := hp.symm
  queueIsSome := by change job.mQueue.isSome = _; rw [hp, h.queueIsSome]
  fresh := by
    intro p hp'
    exact h.fresh p (hp.symm.trans hp')
  nextQueue := h.nextQueue
  queues := h.queues
  pc := rfl
  mItems := h.mItems
  mQuery := h.mQuery
  nextQuery := h.nextQuery
  mRunning := h.mRunning
  mWorkersSize := h.mWorkersSize
  workers := h.workers

/-- **A commit changes nothing, or appends a job that has the items and the query of the main thread.** -/
theorem commit_cases {s : Pool} (h : PreCommit s.main) :
    (s.commit = s ∧ s.main.mQuery = s.main.mJob.mQuery) ∨ Commits s s.commit := by
  unfold Pool.commit
  by_cases hq : s.main.mJob.mQuery.map Shared.addr = s.main.mQuery.map Shared.addr
  · have hjq := h.query hq
    by_cases hi : s.main.mJob.mItems.length = s.main.mItems.length
    · left
      simp [hq, hi, hjq]
    · right
      simp only [hq, hi, ne_eq, not_true_eq_false, not_false_eq_true, decide_true, decide_false, Bool.not_false,
        Bool.not_true, Bool.and_false, Bool.false_or, Bool.true_and, Bool.false_eq_true, if_false]
      -- The queue is renewed if there is a query; a null query has a null queue.
      cases hm : s.main.mQuery with
      | none =>
        have hp : s.main.mQueue = none := by
          have := (h.ok _ h.current_mem).queue
          rw [← h.queue, ← hjq, hm] at this
          simpa using this
        exact (renews_self hm hp).commits rfl hjq.symm h.queue.symm le_rfl (.inl hi)
      | some q =>
        have hr := renews_renewQueue s
        refine hr.commits hr.mItems ?_ rfl ?_ (.inl hi)
        · exact (congrArg Job.mQuery hr.mJob).trans hjq.symm
        · exact (congrArg Job.mQueryTick hr.mJob).ge
  · right
    have hr := renews_renewQueue s
    have ht : s.renewQueue.main.mJob.mQueryTick = s.main.mJob.mQueryTick :=
      congrArg Job.mQueryTick hr.mJob
    simp only [hq, ne_eq, not_false_eq_true, decide_true, Bool.not_true, Bool.false_and, Bool.true_or, if_true,
      Bool.false_eq_true, if_false]
    refine hr.commits ?_ hr.mQuery rfl ?_ (.inr ?_)
    · unfold Pool.nextJob
      by_cases hi : s.main.mJob.mItems.length = s.main.mItems.length
      · simpa [hi, hr.mJob] using h.items.eq_of_length hi
      · simpa [hi] using hr.mItems
    · exact (Nat.le_succ _).trans_eq (congrArg Nat.succ ht).symm
    · exact (Nat.lt_succ_self _).trans_eq (congrArg Nat.succ ht).symm

theorem Commits.lt {s s' : Pool} (h : PreCommit s.main) (hc : Commits s s') : s.main.mJob.tick < s'.main.mJob.tick := by
  have hlen : s.main.mJob.mItems.length ≤ s.main.mItems.length := h.items.length_le
  unfold Job.tick
  rw [hc.jobItems, Prod.mk_lt_mk]
  rcases hc.newer with hi | hq
  · exact .inl ⟨lt_of_le_of_ne hlen hi, hc.tick⟩
  · exact .inr ⟨hlen, hq⟩

theorem Commits.before {s s' : Pool} (h : PreCommit s.main) (hc : Commits s s') {J : Job} (hJ : J ∈ s.main.history) :
    J.Before s'.main.mJob where
  tick := (h.le_current hJ).trans_lt (hc.lt h)
  queue := by
    intro p hp hp'
    have hlt := (h.ok J hJ).queueLt p hp
    rw [(hc.fresh p hp').1] at hlt
    exact lt_irrefl _ hlt

theorem Commits.history {s s' : Pool} (hc : Commits s s') : s'.main.history = s.main.history ++ [s'.main.mJob] := by
  unfold Main.history
  rw [hc.jobs, List.cons_append]

theorem Commits.jobsOk {s s' : Pool} (h : PreCommit s.main) (hc : Commits s s') : JobsOk s'.main where
  increasing := by
    rw [hc.history, List.pairwise_append]
    refine ⟨h.increasing, List.pairwise_singleton _ _, fun J hJ J' hJ' => ?_⟩
    rw [List.mem_singleton.1 hJ']
    exact hc.before h hJ
  current := by rw [hc.history, List.getLast?_append, List.getLast?_singleton, Option.some_or]
  ok := by
    intro J hJ
    rw [hc.history, List.mem_append] at hJ
    rcases hJ with hJ | hJ
    · exact (h.ok J hJ).mono hc.nextQueue
    · rw [List.mem_singleton.1 hJ]
      exact ⟨fun q hq => h.nonempty q (hc.jobQuery ▸ hq), by rw [hc.queueIsSome, hc.jobQuery],
        fun p hp => (hc.fresh p hp).2.2⟩
  query := by rw [hc.mQuery, hc.jobQuery]
  queue := hc.queue
  items := by rw [hc.jobItems, hc.mItems]
  addrLt := by
    rw [hc.mQuery, hc.nextQuery]
    exact h.addrLt

/-! ## The other calls -/

theorem preCommit_withQuery {s : Pool} (h : JobsOk s.main) (q : Query) : PreCommit (s.withQuery q).main := by
  unfold Pool.withQuery
  split
  · rename_i hq
    refine { increasing := h.increasing, current := h.current, ok := h.ok, query := ?_, queue := h.queue,
             items := h.items, nonempty := ?_, addrLt := ?_ }
    · -- The address is new.
      intro he
      obtain ⟨r, hr, hra⟩ := Option.map_eq_some_iff.1 he
      have hlt := h.addrLt r (h.query.trans hr)
      rw [show r.addr = s.main.nextQuery from hra] at hlt
      exact absurd hlt (lt_irrefl _)
    · intro r hr
      cases hr
      simpa using hq
    · intro r hr
      cases hr
      exact Nat.lt_succ_self _
  · refine { increasing := h.increasing, current := h.current, ok := h.ok, query := ?_, queue := h.queue,
             items := h.items, nonempty := ?_, addrLt := ?_ }
    · intro he
      exact (Option.map_eq_none_iff.1 he).symm
    · exact nofun
    · exact nofun

/-- What a call that commits nothing leaves alone; `start` makes new workers. -/
structure Keeps (s s' : Pool) : Prop where
  jobs : s'.main.jobs = s.main.jobs
  mJob : s'.main.mJob = s.main.mJob
  mQuery : s'.main.mQuery = s.main.mQuery
  mQueue : s'.main.mQueue = s.main.mQueue
  nextQuery : s.main.nextQuery ≤ s'.main.nextQuery
  nextQueue : s'.main.nextQueue = s.main.nextQueue
  mItems : s.main.mItems <+: s'.main.mItems
  queues : s'.queues = s.queues

theorem Keeps.refl (s : Pool) : Keeps s s := ⟨rfl, rfl, rfl, rfl, le_rfl, rfl, List.prefix_rfl, rfl⟩

theorem Keeps.jobsOk {s s' : Pool} (hk : Keeps s s') (h : JobsOk s.main) : JobsOk s'.main where
  increasing := by unfold Main.history; rw [hk.jobs]; exact h.increasing
  current := by unfold Main.history; rw [hk.jobs, hk.mJob]; exact h.current
  ok := by unfold Main.history; rw [hk.jobs, hk.nextQueue]; exact h.ok
  query := by rw [hk.mQuery, hk.mJob]; exact h.query
  queue := by rw [hk.mQueue, hk.mJob]; exact h.queue
  items := by rw [hk.mJob]; exact h.items.trans hk.mItems
  addrLt := by rw [hk.mQuery]; exact fun q hq => (h.addrLt q hq).trans_le hk.nextQuery

/-- A call that commits nothing and leaves the workers alone. -/
structure Quiet (s s' : Pool) : Prop extends Keeps s s' where
  pc : s'.main.pc = s.main.pc
  mRunning : s'.main.mRunning = s.main.mRunning
  mWorkersSize : s'.main.mWorkersSize = s.main.mWorkersSize
  workers : s'.workers = s.workers

theorem Quiet.refl (s : Pool) : Quiet s s := ⟨Keeps.refl s, rfl, rfl, rfl, rfl⟩

/-- What a call that commits a job does. -/
structure NewJob (s s' : Pool) : Prop where
  ok : JobsOk s'.main
  jobs : s'.main.jobs = s.main.jobs ++ [s'.main.mJob]
  before : ∀ J ∈ s.main.history, J.Before s'.main.mJob
  fresh : ∀ p, s'.main.mJob.mQueue = some p → s'.queues p = {}
  queues : ∀ p < s.main.nextQueue, s'.queues p = s.queues p
  pc : s'.main.pc = .posting 0
  mRunning : s'.main.mRunning = s.main.mRunning
  mWorkersSize : s'.main.mWorkersSize = s.main.mWorkersSize
  workers : s'.workers = s.workers

theorem Commits.newJob {s s' : Pool} (h : PreCommit s.main) (hc : Commits s s') : NewJob s s' where
  ok := hc.jobsOk h
  jobs := hc.jobs
  before := fun _ hJ => hc.before h hJ
  fresh := fun p hp => (hc.fresh p hp).2.1
  queues := hc.queues
  pc := hc.pc
  mRunning := hc.mRunning
  mWorkersSize := hc.mWorkersSize
  workers := hc.workers

theorem commit_quiet_or_newJob {s : Pool} (h : JobsOk s.main) : Quiet s s.commit ∨ NewJob s s.commit := by
  rcases commit_cases h.preCommit with ⟨he, _⟩ | hc
  · rw [he]
    exact .inl (Quiet.refl s)
  · exact .inr (hc.newJob h.preCommit)

theorem withQuery_eq (s : Pool) (q : Query) : ∃ mQuery nextQuery, s.main.nextQuery ≤ nextQuery ∧
    s.withQuery q = { s with main := { s.main with mQuery := mQuery, nextQuery := nextQuery } } := by
  unfold Pool.withQuery
  split
  · exact ⟨_, _, Nat.le_succ _, rfl⟩
  · exact ⟨_, _, le_rfl, rfl⟩

theorem setQuery_quiet_or_newJob {s : Pool} (h : JobsOk s.main) (query : Bytes) :
    Quiet s (s.setQuery query) ∨ NewJob s (s.setQuery query) := by
  unfold Pool.setQuery
  extract_lets q
  split
  · exact .inl (Quiet.refl s)
  · have hp := preCommit_withQuery h q
    obtain ⟨r, n, hn, he⟩ := withQuery_eq s q
    rw [he] at hp ⊢
    rcases commit_cases hp with ⟨hs, hq⟩ | hc
    · rw [hs]
      exact .inl ⟨⟨rfl, rfl, hq.trans h.query.symm, rfl, hn, rfl, List.prefix_rfl, rfl⟩, rfl, rfl, rfl, rfl⟩
    · have hj := hc.newJob hp
      exact .inr ⟨hj.ok, hj.jobs, hj.before, hj.fresh, hj.queues, hj.pc, hj.mRunning, hj.mWorkersSize, hj.workers⟩

theorem pushItem_quiet (s : Pool) (str : Bytes) : Quiet s (s.pushItem str) := by
  unfold Pool.pushItem
  split
  · exact Quiet.refl s
  · exact ⟨⟨rfl, rfl, rfl, rfl, le_rfl, rfl, List.prefix_append _ _, rfl⟩, rfl, rfl, rfl, rfl⟩

theorem setThreads_quiet (s : Pool) (threads : ℕ) : Quiet s (s.setThreads threads) :=
  ⟨⟨rfl, rfl, rfl, rfl, le_rfl, rfl, List.prefix_rfl, rfl⟩, rfl, rfl, rfl, rfl⟩

theorem start_keeps (s : Pool) : Keeps s s.start := by
  unfold Pool.start
  split
  · exact Keeps.refl s
  · exact ⟨rfl, rfl, rfl, rfl, le_rfl, rfl, List.prefix_rfl, rfl⟩

theorem stop_keeps (s : Pool) : Keeps s s.stop := by
  unfold Pool.stop
  split
  · exact Keeps.refl s
  · exact ⟨rfl, rfl, rfl, rfl, le_rfl, rfl, List.prefix_rfl, rfl⟩

theorem loadResults_keeps (s : Pool) : Keeps s s.loadResults := by
  unfold Pool.loadResults
  split
  · exact Keeps.refl s
  · exact ⟨rfl, rfl, rfl, rfl, le_rfl, rfl, List.prefix_rfl, rfl⟩

/-- **A call commits at most one job.** -/
theorem call_cases {s : Pool} (h : JobsOk s.main) (c : Call) : Keeps s (s.call c) ∨ NewJob s (s.call c) := by
  cases c with
  | setThreads threads => exact .inl (setThreads_quiet s threads).toKeeps
  | start => exact .inl (start_keeps s)
  | stop => exact .inl (stop_keeps s)
  | pushItem str => exact .inl (pushItem_quiet s str).toKeeps
  | setQuery query => exact (setQuery_quiet_or_newJob h query).imp_left Quiet.toKeeps
  | commit => exact (commit_quiet_or_newJob h).imp_left Quiet.toKeeps
  | loadResults => exact .inl (loadResults_keeps s)

theorem jobsOk_init (hardwareConcurrency : ℕ) : JobsOk (Pool.init hardwareConcurrency).main where
  increasing := List.pairwise_singleton _ _
  current := rfl
  ok := by
    intro J hJ
    rw [List.mem_singleton.1 hJ]
    exact ⟨nofun, rfl, nofun⟩
  query := rfl
  queue := rfl
  items := List.prefix_rfl
  addrLt := nofun

end Fzx
