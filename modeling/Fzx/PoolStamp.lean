import Fzx.PoolStep
/-!
# PoolStamp — whose results a buffer holds

A worker's output carries the two ticks of the job it is for.  `StampOk` says which job that is for each of the three
buffers: the write buffer is the worker's own job's until it is published, the committed one is the job's from then on,
and what was loaded is no newer than what was committed.
-/
namespace Fzx

open Lib

def Results.tick (R : Results) : ℕ × ℕ := (R.mItemsTick, R.mQueryTick)

theorem newerThan_iff {a b : Results} : a.newerThan b = true ↔ ¬ a.tick ≤ b.tick := by
  unfold Results.newerThan Results.tick
  rw [Bool.or_eq_true, decide_eq_true_iff, decide_eq_true_iff, Prod.mk_le_mk]
  omega

theorem sameTick_iff {a b : Results} : a.sameTick b = true ↔ a.tick = b.tick := by
  unfold Results.sameTick Results.tick
  rw [Bool.and_eq_true, beq_iff_eq, beq_iff_eq, Prod.mk.injEq]

/-- Results for a job. -/
structure Stamped (R : Results) (J : Job) : Prop where
  tick : R.tick = J.tick
  query : R.mQuery = J.mQuery

/-- Between the labels `match` and the sort. -/
def WorkerPc.matching : WorkerPc → Prop
  | .take | .chunk _ _ | .get | .got _ => True
  | _ => False

structure StampOk (m : Main) (W : Worker) : Prop where
  job : W.job ∈ m.history
  lastItems : W.lastItemsTick = W.job.mItems.length
  lastQuery : W.lastQueryTick = W.job.mQueryTick
  out : W.published = false → Stamped W.out W.job
  committed : W.published = true → Stamped W.mOutput.committed W.job
  committedLe : W.mOutput.committed.tick ≤ W.job.tick
  readLe : W.mOutput.readBuffer.tick ≤ W.mOutput.committed.tick
  matching : W.pc.matching → W.published = false
  notify : W.pc = .notify → W.published = true

/-! ## loadJob and react -/

/-- After `loadJob` found a newer job. -/
def Worker.withJob (W : Worker) (J : Job) : Worker :=
  { W with job := J, lastItemsTick := J.mItems.length, lastQueryTick := J.mQueryTick }

theorem loadJob_cases {m : Main} {W : Worker} (hm : HistoryOk m) (h : StampOk m W) :
    (W.loadJob m.mJob = (W, false) ∧ W.job = m.mJob) ∨
      (W.loadJob m.mJob = (W.withJob m.mJob, true) ∧ W.job.tick < m.mJob.tick) := by
  have hle := hm.le_current h.job
  have hle' := hle
  rw [Job.tick, Job.tick, Prod.mk_le_mk] at hle'
  rcases hle.eq_or_lt with he | hlt
  · left
    have hj : W.job = m.mJob := hm.eq_of_tick h.job hm.current_mem he
    refine ⟨?_, hj⟩
    unfold Worker.loadJob
    rw [← hj, h.lastItems, h.lastQuery]
    simp only [lt_irrefl, decide_false, Bool.or_self, Bool.false_eq_true, if_false, Prod.mk.injEq, and_true]
    rw [← h.lastItems, ← h.lastQuery]
  · right
    refine ⟨?_, hlt⟩
    rw [Job.tick, Job.tick, Prod.mk_lt_mk] at hlt
    have hi : (if W.job.mItems.length < m.mJob.mItems.length then m.mJob.mItems.length else W.job.mItems.length) =
        m.mJob.mItems.length := by split <;> omega
    have hq : (if W.job.mQueryTick < m.mJob.mQueryTick then m.mJob.mQueryTick else W.job.mQueryTick) =
        m.mJob.mQueryTick := by split <;> omega
    unfold Worker.loadJob Worker.withJob
    simp only [h.lastItems, h.lastQuery, decide_eq_true_eq, hi, hq, Prod.mk.injEq, true_and, Bool.or_eq_true]
    omega

/-- What a worker does with its events: it stops, goes on, or starts on a newer job. -/
theorem react_cases {m : Main} {W : Worker} (hm : HistoryOk m) (h : StampOk m W) (ev : EventSet)
    (goOn : Worker → Worker) : (ev.kStop = true ∧ W.react m.mJob ev goOn = W.goto .stopped) ∨
      ((ev.kJob = true → W.job = m.mJob) ∧ W.react m.mJob ev goOn = goOn W) ∨
      (W.job.tick < m.mJob.tick ∧ W.react m.mJob ev goOn = (W.withJob m.mJob).startMatch) := by
  unfold Worker.react
  by_cases hs : ev.kStop = true
  · exact .inl ⟨hs, if_pos hs⟩
  · right
    rw [if_neg hs]
    by_cases hj : ev.kJob = true
    · rw [if_pos hj]
      rcases loadJob_cases hm h with ⟨hl, he⟩ | ⟨hl, hlt⟩
      · rw [hl]
        exact .inl ⟨fun _ => he, rfl⟩
      · rw [hl]
        exact .inr ⟨hlt, rfl⟩
    · rw [if_neg hj]
      exact .inl ⟨fun h => absurd h hj, rfl⟩

/-- A child's results are merged if they are for the same job; newer ones make the worker wait. -/
theorem mergeChild_cases (W : Worker) (i : ℕ) (cres : Results) :
    (¬ cres.tick ≤ W.out.tick ∧ Pool.mergeChild W i cres = W.goto .wait) ∨
      (cres.tick ≠ W.out.tick ∧ Pool.mergeChild W i cres = W.goto (.merge (i + 1))) ∨
      (cres.tick = W.out.tick ∧ Pool.mergeChild W i cres =
        { W.setItems (if !cres.mItems.isEmpty then merge2 W.out.mItems cres.mItems else W.out.mItems) with
          mergeState := W.mergeState.set i, pc := .merge (i + 1) }) := by
  unfold Pool.mergeChild
  by_cases hn : cres.newerThan W.out = true
  · exact .inl ⟨newerThan_iff.1 hn, if_pos hn⟩
  · rw [if_neg hn]
    by_cases hs : cres.sameTick W.out = true
    · exact .inr (.inr ⟨sameTick_iff.1 hs, by rw [hs]; rfl⟩)
    · exact .inr (.inl ⟨fun h => hs (sameTick_iff.2 h), by rw [Bool.eq_false_iff.2 hs]; rfl⟩)

/-! ## The steps keep the stamps -/

theorem StampOk.goto {m : Main} {W : Worker} (h : StampOk m W) {pc : WorkerPc}
    (hm : pc.matching → W.published = false) (hn : pc = .notify → W.published = true) : StampOk m (W.goto pc) :=
  ⟨h.job, h.lastItems, h.lastQuery, h.out, h.committed, h.committedLe, h.readLe, hm, hn⟩

theorem StampOk.setItems {m : Main} {W : Worker} (h : StampOk m W) (items : List MatchedItem) :
    StampOk m (W.setItems items) :=
  ⟨h.job, h.lastItems, h.lastQuery, fun hp => ⟨(h.out hp).tick, (h.out hp).query⟩, h.committed, h.committedLe, h.readLe,
    h.matching, h.notify⟩

theorem StampOk.enterMerge {m : Main} {W : Worker} (h : StampOk m W) : StampOk m W.enterMerge := by
  unfold Worker.enterMerge
  split
  · exact h.goto nofun nofun
  · exact h.goto nofun nofun

theorem StampOk.startMatch {m : Main} {W : Worker} (h : StampOk m W) {J : Job} (hJ : J ∈ m.history)
    (hlt : W.job.tick < J.tick) : StampOk m (W.withJob J).startMatch where
  job := hJ
  lastItems := rfl
  lastQuery := rfl
  out := fun _ => ⟨rfl, rfl⟩
  committed := fun hp => by cases hp
  committedLe := h.committedLe.trans hlt.le
  readLe := h.readLe
  matching := fun _ => rfl
  notify := by
    unfold Worker.startMatch
    simp only
    split
    · exact nofun
    · split <;> exact nofun

theorem StampOk.mergeChild {m : Main} {W : Worker} (h : StampOk m W) (i : ℕ) (cres : Results) :
    StampOk m (Pool.mergeChild W i cres) := by
  rcases mergeChild_cases W i cres with ⟨_, he⟩ | ⟨_, he⟩ | ⟨_, he⟩
  · rw [he]
    exact h.goto nofun nofun
  · rw [he]
    exact h.goto nofun nofun
  · rw [he]
    generalize (if !cres.mItems.isEmpty then merge2 W.out.mItems cres.mItems else W.out.mItems) = items
    have h' := h.setItems items
    exact ⟨h'.job, h'.lastItems, h'.lastQuery, h'.out, h'.committed, h'.committedLe, h'.readLe, nofun, nofun⟩

theorem StampOk.react {m : Main} {W : Worker} (h : StampOk m W) (hm : HistoryOk m) (ev : EventSet)
    {goOn : Worker → Worker} (hgo : StampOk m (goOn W)) : StampOk m (W.react m.mJob ev goOn) := by
  rcases react_cases hm h ev goOn with ⟨_, he⟩ | ⟨_, he⟩ | ⟨hlt, he⟩
  · rw [he]
    exact h.goto nofun nofun
  · rw [he]
    exact hgo
  · rw [he]
    exact h.startMatch hm.current_mem hlt

theorem Own.stampOk {b : Build} {s : Pool} {back : Results} {W W' : Worker} (hm : HistoryOk s.main)
    (h : StampOk s.main W) (ho : Own b s back W W') : StampOk s.main W' := by
  cases ho with
  | wake _ => exact ⟨h.job, h.lastItems, h.lastQuery, h.out, h.committed, h.committedLe, h.readLe, nofun, nofun⟩
  | woken _ => exact h.react hm _ h.enterMerge
  | chunk hpc _ _ =>
    have hp := h.matching (by rw [hpc]; trivial)
    exact (h.setItems _).goto (fun _ => hp) nofun
  | get hpc =>
    have hp := h.matching (by rw [hpc]; trivial)
    exact ⟨h.job, h.lastItems, h.lastQuery, h.out, h.committed, h.committedLe, h.readLe, fun _ => hp, nofun⟩
  | got hpc =>
    have hp := h.matching (by rw [hpc]; trivial)
    exact h.react hm _ (h.goto (fun _ => hp) nofun)
  | skip _ _ _ => exact h.goto nofun nofun
  | mergeEnd _ _ =>
    split
    · exact h.goto nofun nofun
    · exact h.goto nofun nofun
  | merging _ => exact h.mergeChild _ _
  | already _ _ => exact h.goto nofun nofun
  | publish _ hp =>
    have hout := h.out hp
    exact ⟨h.job, h.lastItems, h.lastQuery, nofun, fun _ => hout, hout.tick.le,
      h.readLe.trans (h.committedLe.trans hout.tick.ge), nofun, fun _ => rfl⟩

theorem Touched.stampOk {m : Main} {W W' : Worker} (h : StampOk m W) (ht : Touched W W') : StampOk m W' := by
  cases ht with
  | same => exact h
  | loaded => exact ⟨h.job, h.lastItems, h.lastQuery, h.out, h.committed, h.committedLe, le_rfl, h.matching, h.notify⟩
  | merge => exact ⟨h.job, h.lastItems, h.lastQuery, h.out, h.committed, h.committedLe, h.readLe, h.matching, h.notify⟩
  | job => exact ⟨h.job, h.lastItems, h.lastQuery, h.out, h.committed, h.committedLe, h.readLe, h.matching, h.notify⟩

theorem SelfStep.stampOk {b : Build} {s : Pool} {back : Results} {W W' : Worker} (hm : HistoryOk s.main)
    (h : StampOk s.main W) (hs : SelfStep b s back W W') : StampOk s.main W' := by
  cases hs with
  | own ho => exact ho.stampOk hm h
  | chunk hpc _ _ =>
    have hp := h.matching (by rw [hpc]; trivial)
    exact h.goto (fun _ => hp) nofun
  | sort _ => exact (h.setItems _).enterMerge
  | load _ => exact h.goto nofun nofun
  | notified _ => exact h.goto nofun nofun

/-! ## Runs -/

theorem StampOk.mono {m m' : Main} {W : Worker} (h : StampOk m W) (hm : m.history ⊆ m'.history) : StampOk m' W :=
  ⟨hm h.job, h.lastItems, h.lastQuery, h.out, h.committed, h.committedLe, h.readLe, h.matching, h.notify⟩

/-- The stamps of all the workers, and their merge states. -/
structure Stamps (s : Pool) : Prop where
  stamp : ∀ w, StampOk s.main (s.workers w)
  merge : ∀ w, (s.workers w).mergeState.WellFormed w s.main.mWorkersSize

theorem wellFormed_react {W : Worker} {w n : ℕ} (h : W.mergeState.WellFormed w n) (mJob : Job) (ev : EventSet)
    {goOn : Worker → Worker} (hgo : ∀ W : Worker, (goOn W).mergeState = W.mergeState) :
    (W.react mJob ev goOn).mergeState.WellFormed w n := by
  unfold Worker.react
  split
  · exact h
  · split
    · change (if (W.loadJob mJob).2 then (W.loadJob mJob).1.startMatch
        else goOn (W.loadJob mJob).1).mergeState.WellFormed w n
      split
      · exact h.reset
      · rw [hgo]
        exact h
    · rw [hgo]
      exact h

theorem Own.wellFormed {b : Build} {s : Pool} {back : Results} {W W' : Worker} {w n : ℕ}
    (h : W.mergeState.WellFormed w n) (ho : Own b s back W W') : W'.mergeState.WellFormed w n := by
  cases ho with
  | wake _ => exact h
  | woken _ => exact wellFormed_react h _ _ (fun _ => rfl)
  | chunk _ _ _ => exact h
  | get _ => exact h
  | got _ => exact wellFormed_react h _ _ (fun _ => rfl)
  | skip _ _ _ => exact h
  | mergeEnd _ _ => exact h
  | @merging i _ =>
    rcases mergeChild_cases W i (s.workers (W.mergeState.child i)).mOutput.readBuffer with ⟨_, he⟩ | ⟨_, he⟩ | ⟨_, he⟩
    · rw [he]
      exact h
    · rw [he]
      exact h
    · rw [he]
      exact h.set i
  | already _ _ => exact h
  | publish _ _ => exact h

theorem Touched.mergeState_eq {W W' : Worker} (ht : Touched W W') : W'.mergeState = W.mergeState := by
  cases ht <;> rfl

theorem SelfStep.wellFormed {b : Build} {s : Pool} {back : Results} {W W' : Worker} {w n : ℕ}
    (h : W.mergeState.WellFormed w n) (hs : SelfStep b s back W W') : W'.mergeState.WellFormed w n := by
  cases hs with
  | own ho => exact ho.wellFormed h
  | chunk _ _ _ => exact h
  | sort _ => exact h
  | load _ => exact h
  | notified _ => exact h

/-- A new worker has the first job, which is not committed. -/
theorem stampOk_new (m : Main) (mIndex workersSize : ℕ) : StampOk m (Worker.new mIndex workersSize) where
  job := List.mem_cons_self
  lastItems := rfl
  lastQuery := rfl
  out := fun _ => ⟨rfl, rfl⟩
  committed := nofun
  committedLe := le_rfl
  readLe := le_rfl
  matching := nofun
  notify := nofun

theorem Prepared.stamps {s : Pool} (h : Prepared s) : Stamps s.start := by
  rw [h.start_eq]
  exact ⟨fun w => stampOk_new _ w _, fun w => MergeState.wellFormed_new w _⟩

theorem Stamps.touched {s s' : Pool} (h : Stamps s) (hm : s.main.history ⊆ s'.main.history)
    (hn : s'.main.mWorkersSize = s.main.mWorkersSize) (ht : ∀ w, Touched (s.workers w) (s'.workers w)) : Stamps s' where
  stamp := fun w => ((ht w).stampOk (h.stamp w)).mono hm
  merge := fun w => by
    rw [(ht w).mergeState_eq, hn]
    exact h.merge w

theorem LiveStep.touched_or_worker {b : Build} {s s' : Pool} (h : LiveStep b s s') :
    ((∀ w, Touched (s.workers w) (s'.workers w)) ∧ s.main.history ⊆ s'.main.history ∧
      s'.main.mWorkersSize = s.main.mWorkersSize) ∨ ∃ w back, w < s.main.mWorkersSize ∧ WorkerStep b s w back s' := by
  cases h with
  | newJob h =>
    refine .inl ⟨fun w => .of_eq (congrFun h.workers w), ?_, h.mWorkersSize⟩
    unfold Main.history
    rw [h.jobs, ← List.cons_append]
    exact List.subset_append_left _ _
  | quiet h =>
    refine .inl ⟨fun w => .of_eq (congrFun h.workers w), ?_, h.mWorkersSize⟩
    unfold Main.history
    rw [h.jobs]
    exact List.Subset.refl _
  | loadResults => exact .inl ⟨touched_setWorker .loaded, List.Subset.refl _, rfl⟩
  | post _ _ => exact .inl ⟨touched_setWorker .job, List.Subset.refl _, rfl⟩
  | posted _ _ => exact .inl ⟨fun w => .same, List.Subset.refl _, rfl⟩
  | worker hw h => exact .inr ⟨_, _, hw, h⟩

theorem LiveStep.stamps {b : Build} {s s' : Pool} (hl : Live s) (h : Stamps s) (hs : LiveStep b s s') : Stamps s' := by
  rcases hs.touched_or_worker with ⟨ht, hm, hn⟩ | ⟨w, back, _, hw⟩
  · exact h.touched hm hn ht
  · refine ⟨fun u => ?_, fun u => ?_⟩
    · rw [hw.main]
      by_cases hu : u = w
      · exact hu ▸ hw.self.stampOk hl.jobs.toHistoryOk (h.stamp w)
      · exact (hw.touched hu).stampOk (h.stamp u)
    · rw [hw.main]
      by_cases hu : u = w
      · exact hu ▸ hw.self.wellFormed (h.merge w)
      · rw [(hw.touched hu).mergeState_eq]
        exact h.merge u

end Fzx
