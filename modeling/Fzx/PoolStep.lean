import Fzx.PoolJobs
/-!
# PoolStep — what a step of the pool can do

`workerStep_cases` lists the steps of a worker, each with what it leaves; the other workers are at most `Touched`: a
result is loaded from them or an event is posted to them.  `step_cases` lists the steps of a pool; `Live` is one between
`start` and `stop`, and `live_cases` lists its steps.
-/
namespace Fzx

open Lib

/-! ## A worker's own step -/

/-- The steps of a worker in which it changes nothing but its own record. -/
inductive Own (b : Build) (s : Pool) (back : Results) (W : Worker) : Worker → Prop where
  | wake (hpc : W.pc = .wait) : Own b s back W { W with mEvents := {}, pc := .woken W.mEvents }
  | woken {ev : EventSet} (hpc : W.pc = .woken ev) : Own b s back W (W.react s.main.mJob ev Worker.enterMerge)
  | chunk {start stop : ℕ} {q : Shared Query} {items : List MatchedItem} (hpc : W.pc = .chunk start stop)
      (hq : W.job.mQuery = some q)
      (hm : matchItems b W.job.mItems q.val (List.range' start (stop - start)) W.out.mItems = some items) :
      Own b s back W ((W.setItems items).goto .get)
  | get (hpc : W.pc = .get) : Own b s back W { W with mEvents := {}, pc := .got W.mEvents }
  | got {ev : EventSet} (hpc : W.pc = .got ev) :
      Own b s back W (W.react s.main.mJob ev (fun W => W.goto .take))
  | skip {i : ℕ} (hpc : W.pc = .merge i) (hi : i < W.mergeState.size) (hc : W.mergeState.contains i = true) :
      Own b s back W (W.goto (.merge (i + 1)))
  | mergeEnd {i : ℕ} (hpc : W.pc = .merge i) (hi : W.mergeState.size ≤ i) :
      Own b s back W (W.goto (if W.mergeState.done then .publish else .wait))
  | merging {i : ℕ} (hpc : W.pc = .merging i) :
      Own b s back W (Pool.mergeChild W i (s.workers (W.mergeState.child i)).mOutput.readBuffer)
  | already (hpc : W.pc = .publish) (hp : W.published = true) : Own b s back W (W.goto .wait)
  | publish (hpc : W.pc = .publish) (hp : W.published = false) :
      Own b s back W { W with published := true, mOutput := W.mOutput.commit back, pc := .notify }

/-- The queues after worker `w` took a chunk. -/
def Pool.taken (s : Pool) (w p : ℕ) : ℕ → ItemQueue :=
  Function.update s.queues p ((s.queues p).take kChunkSize w).2

inductive WorkerStep (b : Build) (s : Pool) (w : ℕ) (back : Results) : Pool → Prop where
  | own {W : Worker} (h : Own b s back (s.workers w) W) : WorkerStep b s w back (s.setWorker w W)
  | takeChunk {p : ℕ} (hpc : (s.workers w).pc = .take) (hp : (s.workers w).job.mQueue = some p)
      (h : (s.queues p).mIndex < (s.workers w).job.mItems.length) :
      WorkerStep b s w back ({ s with queues := s.taken w p }.setWorker w ((s.workers w).goto (.chunk (s.queues p).mIndex
        (min ((s.queues p).mIndex + kChunkSize) (s.workers w).job.mItems.length))))
  | takeEnd {p : ℕ} (hpc : (s.workers w).pc = .take) (hp : (s.workers w).job.mQueue = some p)
      (h : (s.workers w).job.mItems.length ≤ (s.queues p).mIndex) :
      WorkerStep b s w back ({ s with queues := s.taken w p }.setWorker w
        ((s.workers w).setItems (sortItems (s.workers w).out.mItems)).enterMerge)
  | load {i : ℕ} (hpc : (s.workers w).pc = .merge i) (hi : i < (s.workers w).mergeState.size)
      (hc : (s.workers w).mergeState.contains i = false) :
      WorkerStep b s w back ((s.setWorker ((s.workers w).mergeState.child i)
        { s.workers ((s.workers w).mergeState.child i) with
          mOutput := (s.workers ((s.workers w).mergeState.child i)).mOutput.load }).setWorker w
        ((s.workers w).goto (.merging i)))
  | notifyMain (hpc : (s.workers w).pc = .notify) (hw : w = 0) :
      WorkerStep b s w back (s.setWorker w ((s.workers w).goto .wait))
  | notifyParent (hpc : (s.workers w).pc = .notify) (hw : w ≠ 0) (hp : w ≠ parent w) :
      WorkerStep b s w back ((s.setWorker w ((s.workers w).goto .wait)).setWorker (parent w)
        { s.workers (parent w) with mEvents := { (s.workers (parent w)).mEvents with kMerge := true } })

theorem setWorker_self (s : Pool) (w : ℕ) (W : Worker) : (s.setWorker w W).workers w = W := Function.update_self ..

theorem setWorker_other {s : Pool} {w u : ℕ} (h : u ≠ w) (W : Worker) : (s.setWorker w W).workers u = s.workers u :=
  Function.update_of_ne h ..

theorem parent_lt : ∀ w < 64, w ≠ 0 → parent w < w := by decide

theorem takeStep_cases {b : Build} {s : Pool} {w p : ℕ} {back : Results} (hpc : (s.workers w).pc = .take)
    (hp : (s.workers w).job.mQueue = some p) : WorkerStep b s w back (s.takeStep w p) := by
  unfold Pool.takeStep ItemQueue.take
  have hK : 0 < kChunkSize := by decide
  by_cases h : (s.queues p).mIndex < (s.workers w).job.mItems.length
  · have h' : WorkerStep b s w back _ := .takeChunk hpc hp h
    have hlt : ¬ (s.queues p).mIndex ≥ min ((s.queues p).mIndex + kChunkSize) (s.workers w).job.mItems.length := by omega
    simp only [Nat.min_eq_left h.le, if_neg hlt]
    exact h'
  · have h := Nat.le_of_not_lt h
    have h' : WorkerStep b s w back _ := .takeEnd hpc hp h
    simp only [Nat.min_eq_right h, Nat.min_eq_right (Nat.le_add_right _ kChunkSize), ge_iff_le, le_refl, if_true]
    exact h'

/-- **The steps of a worker.** -/
theorem workerStep_cases {b : Build} {s s' : Pool} {w : ℕ} {back : Results} (hw : w < 64)
    (h : s.workerStep b w back = some s') : WorkerStep b s w back s' := by
  unfold Pool.workerStep at h
  extract_lets W at h
  cases hpc : W.pc with
  | wait =>
    simp only [hpc] at h
    split at h
    · cases h
      exact .own (.wake hpc)
    · cases h
  | woken ev =>
    simp only [hpc] at h
    cases h
    exact .own (.woken hpc)
  | take =>
    simp only [hpc] at h
    obtain ⟨p, hp, rfl⟩ := Option.map_eq_some_iff.1 h
    exact takeStep_cases hpc hp
  | chunk start stop =>
    simp only [hpc] at h
    obtain ⟨q, hq, h⟩ := Option.bind_eq_some_iff.1 h
    obtain ⟨items, hm, rfl⟩ := Option.map_eq_some_iff.1 h
    exact .own (.chunk hpc hq hm)
  | get =>
    simp only [hpc] at h
    cases h
    exact .own (.get hpc)
  | got ev =>
    simp only [hpc] at h
    cases h
    exact .own (.got hpc)
  | merge i =>
    simp only [hpc] at h
    split at h
    · rename_i hi
      split at h
      · rename_i hc
        cases h
        exact .own (.skip hpc hi hc)
      · rename_i hc
        cases h
        exact .load hpc hi (Bool.eq_false_iff.2 hc)
    · rename_i hi
      cases h
      exact .own (.mergeEnd hpc (Nat.le_of_not_lt hi))
  | merging i =>
    simp only [hpc] at h
    cases h
    exact .own (.merging hpc)
  | publish =>
    simp only [hpc] at h
    split at h
    · rename_i hp
      cases h
      exact .own (.already hpc hp)
    · rename_i hp
      cases h
      exact .own (.publish hpc (Bool.eq_false_iff.2 hp))
  | notify =>
    simp only [hpc] at h
    split at h
    · rename_i h0
      rw [← Option.some.inj h]
      exact .notifyMain hpc h0
    · rename_i h0
      have hp := parent_lt w hw h0
      have hP : (s.setWorker w (W.goto .wait)).workers (parent w) = s.workers (parent w) := setWorker_other hp.ne _
      have h' : WorkerStep b s w back _ := .notifyParent hpc h0 hp.ne'
      rw [← hP] at h'
      rw [← Option.some.inj h]
      exact h'
  | stopped =>
    simp only [hpc] at h
    cases h

/-! ## The worker itself -/

/-- What a step makes of the worker that makes it. -/
inductive SelfStep (b : Build) (s : Pool) (back : Results) (W : Worker) : Worker → Prop where
  | own {W' : Worker} (h : Own b s back W W') : SelfStep b s back W W'
  | chunk (hpc : W.pc = .take) (start stop : ℕ) : SelfStep b s back W (W.goto (.chunk start stop))
  | sort (hpc : W.pc = .take) : SelfStep b s back W (W.setItems (sortItems W.out.mItems)).enterMerge
  | load {i : ℕ} (hpc : W.pc = .merge i) : SelfStep b s back W (W.goto (.merging i))
  | notified (hpc : W.pc = .notify) : SelfStep b s back W (W.goto .wait)

theorem WorkerStep.self {b : Build} {s s' : Pool} {w : ℕ} {back : Results} (h : WorkerStep b s w back s') :
    SelfStep b s back (s.workers w) (s'.workers w) := by
  cases h with
  | own h =>
    rw [setWorker_self]
    exact .own h
  | takeChunk hpc _ _ =>
    rw [setWorker_self]
    exact .chunk hpc _ _
  | takeEnd hpc _ _ =>
    rw [setWorker_self]
    exact .sort hpc
  | load hpc _ _ =>
    rw [setWorker_self]
    exact .load hpc
  | notifyMain hpc _ =>
    rw [setWorker_self]
    exact .notified hpc
  | notifyParent hpc _ hp =>
    rw [setWorker_other hp, setWorker_self]
    exact .notified hpc

/-! ## The other workers -/

/-- What a step of another thread does to a worker. -/
inductive Touched (W : Worker) : Worker → Prop where
  | same : Touched W W
  | loaded : Touched W { W with mOutput := W.mOutput.load }
  | merge : Touched W { W with mEvents := { W.mEvents with kMerge := true } }
  | job : Touched W { W with mEvents := { W.mEvents with kJob := true } }

theorem Touched.of_eq {W W' : Worker} (h : W' = W) : Touched W W' := h ▸ .same

theorem touched_setWorker {s : Pool} {k : ℕ} {W : Worker} (h : Touched (s.workers k) W) (w : ℕ) :
    Touched (s.workers w) ((s.setWorker k W).workers w) := by
  by_cases hw : w = k
  · subst hw
    rwa [setWorker_self]
  · exact .of_eq (setWorker_other hw _)

theorem WorkerStep.touched {b : Build} {s s' : Pool} {w u : ℕ} {back : Results} (h : WorkerStep b s w back s')
    (hu : u ≠ w) : Touched (s.workers u) (s'.workers u) := by
  cases h with
  | own _ => exact .of_eq (setWorker_other hu _)
  | takeChunk _ _ _ => exact .of_eq (setWorker_other hu _)
  | takeEnd _ _ _ => exact .of_eq (setWorker_other hu _)
  | @load i _ _ _ =>
    rw [setWorker_other hu]
    by_cases hc : u = (s.workers w).mergeState.child i
    · subst hc
      rw [setWorker_self]
      exact .loaded
    · exact .of_eq (setWorker_other hc _)
  | notifyMain _ _ => exact .of_eq (setWorker_other hu _)
  | notifyParent _ _ _ =>
    by_cases hp : u = parent w
    · subst hp
      rw [setWorker_self]
      exact .merge
    · rw [setWorker_other hp]
      exact .of_eq (setWorker_other hu _)

theorem WorkerStep.main {b : Build} {s s' : Pool} {w : ℕ} {back : Results} (h : WorkerStep b s w back s') :
    s'.main = s.main := by
  cases h <;> rfl

/-! ## A live pool -/

def WorkerPc.NoStop : WorkerPc → Prop
  | .woken ev | .got ev => ev.kStop = false
  | .stopped => False
  | _ => True

/-- No `kStop` was posted to the worker. -/
structure Worker.Runs (W : Worker) : Prop where
  events : W.mEvents.kStop = false
  pc : W.pc.NoStop

/-- A pool that was started and not stopped. -/
structure Live (s : Pool) : Prop where
  jobs : JobsOk s.main
  running : s.main.mRunning = true
  stopping : ∀ k, s.main.pc ≠ .stopping k
  joining : ∀ k, s.main.pc ≠ .joining k
  pos : 0 < s.main.mWorkersSize
  size : s.main.mWorkersSize ≤ 64
  runs : ∀ w, (s.workers w).Runs

def Pool.Action.NoStop : Pool.Action → Prop
  | .call .stop => False
  | _ => True

inductive LiveStep (b : Build) (s : Pool) : Pool → Prop where
  | newJob {s' : Pool} (h : NewJob s s') : LiveStep b s s'
  | quiet {s' : Pool} (h : Quiet s s') : LiveStep b s s'
  | loadResults : LiveStep b s (s.setWorker 0 { s.workers 0 with mOutput := (s.workers 0).mOutput.load })
  | post {k : ℕ} (hpc : s.main.pc = .posting k) (hk : k < s.main.mWorkersSize) :
      LiveStep b s { s.setWorker k { s.workers k with mEvents := { (s.workers k).mEvents with kJob := true } } with
        main := { s.main with pc := .posting (k + 1) } }
  | posted {k : ℕ} (hpc : s.main.pc = .posting k) (hk : s.main.mWorkersSize ≤ k) :
      LiveStep b s { s with main := { s.main with pc := .idle } }
  | worker {s' : Pool} {w : ℕ} {back : Results} (hw : w < s.main.mWorkersSize) (h : WorkerStep b s w back s') :
      LiveStep b s s'

/-- The steps of `stop` after it was called. -/
inductive StopStep (s : Pool) : Pool → Prop where
  | post {k : ℕ} (hpc : s.main.pc = .stopping k) (hk : k < s.main.mWorkersSize) :
      StopStep s { s.setWorker k { s.workers k with mEvents := { (s.workers k).mEvents with kStop := true } } with
        main := { s.main with pc := .stopping (k + 1) } }
  | posted {k : ℕ} (hpc : s.main.pc = .stopping k) (hk : s.main.mWorkersSize ≤ k) :
      StopStep s { s with main := { s.main with pc := .joining 0 } }
  | join {k : ℕ} (hpc : s.main.pc = .joining k) (hk : k < s.main.mWorkersSize) (hw : (s.workers k).pc = .stopped) :
      StopStep s { s with main := { s.main with pc := .joining (k + 1) } }
  | joined {k : ℕ} (hpc : s.main.pc = .joining k) (hk : s.main.mWorkersSize ≤ k) :
      StopStep s { s with main := { s.main with pc := .idle, mWorkersSize := 0 } }

inductive PoolStep (b : Build) (s : Pool) : Pool.Action → Pool → Prop where
  | live {a : Pool.Action} {s' : Pool} (h : LiveStep b s s') : PoolStep b s a s'
  | start (hpc : s.main.pc = .idle) (hr : s.main.mRunning = false) :
      PoolStep b s (.call .start)
        { s with main := { s.main with mRunning := true, mWorkersSize := s.main.mThreads }
                 workers := fun w => Worker.new w s.main.mThreads }
  | stop (hpc : s.main.pc = .idle) (hr : s.main.mRunning = true) :
      PoolStep b s (.call .stop) { s with main := { s.main with mRunning := false, pc := .stopping 0 } }
  | stopping {a : Pool.Action} {s' : Pool} (h : StopStep s s') : PoolStep b s a s'

theorem call_steps {b : Build} {s : Pool} (hj : JobsOk s.main) (hpc : s.main.pc = .idle) (c : Call) :
    PoolStep b s (.call c) (s.call c) := by
  cases c with
  | setThreads threads => exact .live (.quiet (setThreads_quiet s threads))
  | start =>
    change PoolStep b s (.call .start) s.start
    unfold Pool.start
    split
    · exact .live (.quiet (Quiet.refl s))
    · rename_i hr
      exact .start hpc (Bool.eq_false_iff.2 hr)
  | stop =>
    change PoolStep b s (.call .stop) s.stop
    unfold Pool.stop
    split
    · exact .live (.quiet (Quiet.refl s))
    · rename_i hr
      exact .stop hpc (by simpa using hr)
  | pushItem str => exact .live (.quiet (pushItem_quiet s str))
  | setQuery query => exact .live ((setQuery_quiet_or_newJob hj query).elim .quiet .newJob)
  | commit => exact .live ((commit_quiet_or_newJob hj).elim .quiet .newJob)
  | loadResults =>
    change PoolStep b s (.call .loadResults) s.loadResults
    unfold Pool.loadResults
    split
    · exact .live (.quiet (Quiet.refl s))
    · exact .live .loadResults

theorem mainStep_steps {b : Build} {s s' : Pool} {a : Pool.Action} (h : s.mainStep = some s') : PoolStep b s a s' := by
  unfold Pool.mainStep at h
  cases hpc : s.main.pc with
  | idle =>
    simp only [hpc] at h
    cases h
  | posting k =>
    simp only [hpc] at h
    split at h
    · rename_i hk
      rw [← Option.some.inj h]
      exact .live (.post hpc hk)
    · rename_i hk
      rw [← Option.some.inj h]
      exact .live (.posted hpc (Nat.le_of_not_lt hk))
  | stopping k =>
    simp only [hpc] at h
    split at h
    · rename_i hk
      rw [← Option.some.inj h]
      exact .stopping (.post hpc hk)
    · rename_i hk
      rw [← Option.some.inj h]
      exact .stopping (.posted hpc (Nat.le_of_not_lt hk))
  | joining k =>
    simp only [hpc] at h
    split at h
    · rename_i hk
      split at h
      · rename_i hw
        rw [← Option.some.inj h]
        exact .stopping (.join hpc hk hw)
      · cases h
    · rename_i hk
      rw [← Option.some.inj h]
      exact .stopping (.joined hpc (Nat.le_of_not_lt hk))

/-- **The steps of a pool.** -/
theorem step_cases {b : Build} {s s' : Pool} {a : Pool.Action} (hj : JobsOk s.main) (hn : s.main.mWorkersSize ≤ 64)
    (h : s.step b a = some s') : PoolStep b s a s' := by
  unfold Pool.step at h
  cases a with
  | call c =>
    simp only at h
    split at h
    · rename_i hpc
      rw [← Option.some.inj h]
      exact call_steps hj hpc c
    · cases h
  | main => exact mainStep_steps h
  | worker w back =>
    simp only at h
    split at h
    · rename_i hw
      exact .live (.worker hw (workerStep_cases (hw.trans_le hn) h))
    · cases h

/-- **The steps of a live pool.** -/
theorem live_cases {b : Build} {s s' : Pool} {a : Pool.Action} (hl : Live s) (ha : a.NoStop)
    (h : s.step b a = some s') : LiveStep b s s' := by
  cases step_cases hl.jobs hl.size h with
  | live h => exact h
  | start _ hr => cases hl.running.symm.trans hr
  | stop _ _ => exact ha.elim
  | stopping h =>
    cases h with
    | post hpc _ => exact absurd hpc (hl.stopping _)
    | posted hpc _ => exact absurd hpc (hl.stopping _)
    | join hpc _ _ => exact absurd hpc (hl.joining _)
    | joined hpc _ => exact absurd hpc (hl.joining _)

/-! ### It stays live -/

theorem Touched.runs {W W' : Worker} (h : W.Runs) (ht : Touched W W') : W'.Runs := by
  cases ht <;> exact ⟨h.events, h.pc⟩

theorem noStop_startMatch (W : Worker) : W.startMatch.pc.NoStop := by
  unfold Worker.startMatch
  simp only
  split
  · trivial
  · split <;> trivial

theorem noStop_enterMerge (W : Worker) : W.enterMerge.pc.NoStop := by
  unfold Worker.enterMerge Worker.goto
  split <;> trivial

theorem runs_react {W : Worker} (h : W.Runs) {mJob : Job} {ev : EventSet} (hev : ev.kStop = false)
    {goOn : Worker → Worker} (hgo : ∀ W : Worker, W.mEvents.kStop = false → (goOn W).Runs) :
    (W.react mJob ev goOn).Runs := by
  unfold Worker.react
  rw [hev, if_neg Bool.false_ne_true]
  split
  · change (if (W.loadJob mJob).2 then (W.loadJob mJob).1.startMatch else goOn (W.loadJob mJob).1).Runs
    split
    · exact ⟨h.events, noStop_startMatch _⟩
    · exact hgo _ h.events
  · exact hgo W h.events

theorem Own.runs {b : Build} {s : Pool} {back : Results} {W W' : Worker} (h : W.Runs) (ho : Own b s back W W') :
    W'.Runs := by
  have hpc := h.pc
  cases ho with
  | wake _ => exact ⟨rfl, h.events⟩
  | woken hw =>
    rw [hw] at hpc
    exact runs_react h hpc (fun W hW => ⟨hW, noStop_enterMerge W⟩)
  | chunk _ _ _ => exact ⟨h.events, trivial⟩
  | get _ => exact ⟨rfl, h.events⟩
  | got hw =>
    rw [hw] at hpc
    exact runs_react h hpc (fun W hW => ⟨hW, trivial⟩)
  | skip _ _ _ => exact ⟨h.events, trivial⟩
  | mergeEnd _ _ =>
    refine ⟨h.events, ?_⟩
    unfold Worker.goto
    split <;> trivial
  | merging _ =>
    unfold Pool.mergeChild
    split
    · exact ⟨h.events, trivial⟩
    · split
      · exact ⟨h.events, trivial⟩
      · exact ⟨h.events, trivial⟩
  | already _ _ => exact ⟨h.events, trivial⟩
  | publish _ _ => exact ⟨h.events, trivial⟩

theorem SelfStep.runs {b : Build} {s : Pool} {back : Results} {W W' : Worker} (h : W.Runs)
    (hs : SelfStep b s back W W') : W'.Runs := by
  cases hs with
  | own ho => exact ho.runs h
  | chunk _ _ _ => exact ⟨h.events, trivial⟩
  | sort _ => exact ⟨h.events, noStop_enterMerge _⟩
  | load _ => exact ⟨h.events, trivial⟩
  | notified _ => exact ⟨h.events, trivial⟩

theorem LiveStep.live {b : Build} {s s' : Pool} (hl : Live s) (h : LiveStep b s s') : Live s' := by
  cases h with
  | newJob h =>
    exact { jobs := h.ok, running := h.mRunning.trans hl.running, stopping := by simp [h.pc],
            joining := by simp [h.pc], pos := h.mWorkersSize.symm ▸ hl.pos, size := h.mWorkersSize.symm ▸ hl.size,
            runs := h.workers.symm ▸ hl.runs }
  | quiet h =>
    exact { jobs := h.jobsOk hl.jobs, running := h.mRunning.trans hl.running, stopping := h.pc.symm ▸ hl.stopping,
            joining := h.pc.symm ▸ hl.joining, pos := h.mWorkersSize.symm ▸ hl.pos
            size := h.mWorkersSize.symm ▸ hl.size, runs := h.workers.symm ▸ hl.runs }
  | loadResults =>
    refine { jobs := hl.jobs, running := hl.running, stopping := hl.stopping, joining := hl.joining, pos := hl.pos
             size := hl.size, runs := fun w => ?_ }
    exact (touched_setWorker .loaded w).runs (hl.runs w)
  | @post k hpc hk =>
    refine { jobs := ⟨⟨hl.jobs.increasing, hl.jobs.current, hl.jobs.ok⟩, hl.jobs.query, hl.jobs.queue, hl.jobs.items,
                      hl.jobs.addrLt⟩
             running := hl.running, stopping := nofun, joining := nofun, pos := hl.pos
             size := hl.size, runs := fun w => ?_ }
    exact (touched_setWorker .job w).runs (hl.runs w)
  | posted hpc hk =>
    exact { jobs := ⟨⟨hl.jobs.increasing, hl.jobs.current, hl.jobs.ok⟩, hl.jobs.query, hl.jobs.queue, hl.jobs.items,
                      hl.jobs.addrLt⟩
            running := hl.running, stopping := nofun, joining := nofun, pos := hl.pos
            size := hl.size, runs := hl.runs }
  | @worker s' w back hw h =>
    have hm := h.main
    refine { jobs := hm.symm ▸ hl.jobs, running := hm.symm ▸ hl.running, stopping := hm.symm ▸ hl.stopping,
             joining := hm.symm ▸ hl.joining, pos := hm.symm ▸ hl.pos, size := hm.symm ▸ hl.size, runs := fun u => ?_ }
    by_cases hu : u = w
    · exact hu ▸ h.self.runs (hl.runs w)
    · exact (h.touched hu).runs (hl.runs u)

/-! ### Runs -/

/-- What may come before `start`: nothing is committed, as a `setQuery` to no query returns at once. -/
def Pool.Action.Prepares : Pool.Action → Prop
  | .call (.setThreads _) | .call (.pushItem _) | .call .loadResults => True
  | .call (.setQuery query) => (Query.parse query).empty = true
  | _ => False

/-- A pool that nothing was committed to and whose workers do not run. -/
structure Prepared (s : Pool) : Prop where
  jobs : JobsOk s.main
  none : s.main.jobs = []
  running : s.main.mRunning = false
  pc : s.main.pc = .idle
  size : s.main.mWorkersSize = 0
  threads : 0 < s.main.mThreads ∧ s.main.mThreads ≤ 64
  queues : s.queues = fun _ => {}

theorem clampThreads_spec (threads : ℕ) : 0 < clampThreads threads ∧ clampThreads threads ≤ 64 := by
  unfold clampThreads kMaxThreads
  omega

theorem prepared_init (hardwareConcurrency : ℕ) : Prepared (Pool.init hardwareConcurrency) where
  jobs := jobsOk_init hardwareConcurrency
  none := rfl
  running := rfl
  pc := rfl
  size := rfl
  threads := clampThreads_spec hardwareConcurrency
  queues := rfl

theorem Prepared.mJob_eq {s : Pool} (h : Prepared s) : s.main.mJob = {} := h.jobs.mJob_eq h.none

theorem Prepared.step {b : Build} {s s' : Pool} {a : Pool.Action} (h : Prepared s) (ha : a.Prepares)
    (hs : s.step b a = some s') : Prepared s' := by
  cases a with
  | main => exact ha.elim
  | worker w back => exact ha.elim
  | call c =>
    unfold Pool.step at hs
    simp only [h.pc, if_true] at hs
    rw [← Option.some.inj hs]
    cases c with
    | start => exact ha.elim
    | stop => exact ha.elim
    | setQuery query =>
      have hq : s.main.mQuery = .none := by rw [h.jobs.query, h.mJob_eq]
      have he : (Query.parse query).empty = true := ha
      change Prepared (s.setQuery query)
      unfold Pool.setQuery
      rw [if_pos (by simp [hq, he])]
      exact h
    | commit => exact ha.elim
    | setThreads threads =>
      have hj := (setThreads_quiet s threads).jobsOk h.jobs
      exact ⟨hj, h.none, h.running, h.pc, h.size, clampThreads_spec threads, h.queues⟩
    | pushItem str =>
      have hj := (pushItem_quiet s str).jobsOk h.jobs
      change Prepared (s.pushItem str)
      unfold Pool.pushItem at hj ⊢
      split
      · exact h
      · rename_i hstr
        rw [if_neg hstr] at hj
        exact ⟨hj, h.none, h.running, h.pc, h.size, h.threads, h.queues⟩
    | loadResults =>
      change Prepared s.loadResults
      unfold Pool.loadResults
      rw [if_pos h.size]
      exact h

theorem Prepared.start_eq {s : Pool} (h : Prepared s) : s.start =
    { s with main := { s.main with mRunning := true, mWorkersSize := s.main.mThreads }
             workers := fun w => Worker.new w s.main.mThreads } := by
  unfold Pool.start
  rw [h.running, if_neg Bool.false_ne_true]

theorem Prepared.live {s : Pool} (h : Prepared s) : Live s.start := by
  have hj := (start_keeps s).jobsOk h.jobs
  rw [h.start_eq] at hj ⊢
  refine { jobs := hj, running := rfl, stopping := ?_, joining := ?_, pos := h.threads.1, size := h.threads.2
           runs := fun w => ⟨rfl, trivial⟩ }
  · exact fun k hk => by cases h.pc.symm.trans hk
  · exact fun k hk => by cases h.pc.symm.trans hk

/-- **What holds after `start` and is kept by the steps of a live pool holds in every run without `stop`.** -/
theorem live_run {b : Build} (P : Pool → Prop) (hstart : ∀ s, Prepared s → P s.start)
    (hstep : ∀ s s', Live s → P s → LiveStep b s s' → P s') {hardwareConcurrency : ℕ} {pre post : List Pool.Action}
    {s : Pool} (hpre : ∀ a ∈ pre, a.Prepares) (hpost : ∀ a ∈ post, a.NoStop)
    (hr : run (Pool.step b) (Pool.init hardwareConcurrency) (pre ++ .call .start :: post) = some s) : Live s ∧ P s := by
  obtain ⟨t, ht, hr⟩ := run_append_eq_some.1 hr
  obtain ⟨u, hu, hr⟩ := run_cons_eq_some.1 hr
  have hp : Prepared t :=
    run_inv_on _ Prepared (fun _ _ _ ha hp hs => hp.step ha hs) pre _ t hpre (prepared_init _) ht
  have he : t.start = u := by
    unfold Pool.step at hu
    simp only [hp.pc, if_true] at hu
    exact Option.some.inj hu
  refine run_inv_on _ (fun s => Live s ∧ P s) (fun s a s' ha hl hs => ?_) post u s hpost ?_ hr
  · have hstep' := live_cases hl.1 ha hs
    exact ⟨hstep'.live hl.1, hstep s s' hl.1 hl.2 hstep'⟩
  · rw [← he]
    exact ⟨hp.live, hstart t hp⟩

end Fzx
