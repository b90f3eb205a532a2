import Fzx.PoolRuns
import Fzx.Lib.Settle
/-!
# PoolWork — the work that is left

Between two calls the pool does a bounded amount of work.  `Pool.work` adds up what is left of it: of the call the main
thread is in, and of each worker's job, with the events that are pending for the worker.  A step does some of its own
and may leave an event to another worker, which is worth less than what it cost (`RunOk.work_lt`).  So no schedule of
the threads goes on for ever, and the bound is linear in the number of chunks (`work_le`).
-/
namespace Fzx

open Lib

/-! ## What is left -/

def EventSet.count (e : EventSet) : ℕ := e.kStop.toNat + e.kJob.toNat + e.kMerge.toNat

/-- Chunks of `n` items. -/
def chunks (n : ℕ) : ℕ := (n + (kChunkSize - 1)) / kChunkSize

/-- The chunks of a job that nobody took. -/
def Pool.chunksLeft (s : Pool) (J : Job) : ℕ :=
  match J.mQueue with
  | some p => chunks (J.mItems.length - (s.queues p).mIndex)
  | none => 0

/-- Steps until the worker waits, if it gets no events; `left` are the chunks it may take. -/
def WorkerPc.work (children left : ℕ) : WorkerPc → ℕ
  | .wait | .stopped => 0
  | .woken _ => 2 * children + 3
  | .take => 4 * left + 2 * children + 3
  | .chunk _ _ => 4 * left + 2 * children + 6
  | .get => 4 * left + 2 * children + 5
  | .got _ => 4 * left + 2 * children + 4
  | .merge i => 2 * (children - i) + 2
  | .merging i => 2 * (children - (i + 1)) + 3
  | .publish => 1
  | .notify => 17

/-- Also what is left of a job that the worker has not loaded. -/
def Worker.work (s : Pool) (W : Worker) : ℕ :=
  (if W.job.tick = s.main.mJob.tick then 0 else 4 * chunks s.main.mJob.mItems.length + 18) +
    (if W.published then 0 else 17) + 16 * W.mEvents.count + W.pc.work W.mergeState.size (s.chunksLeft W.job)

def Main.work (m : Main) : ℕ :=
  match m.pc with
  | .idle => 0
  | .posting k => 17 * (m.mWorkersSize - k) + 1
  | .stopping k => 17 * (m.mWorkersSize - k) + m.mWorkersSize + 3
  | .joining k => m.mWorkersSize - k + 1

def Pool.work (s : Pool) : ℕ := s.main.work + ∑ w ∈ Finset.range s.main.mWorkersSize, (s.workers w).work s

/-- The steps that are not calls. -/
def Pool.Action.Internal : Pool.Action → Prop
  | .call _ => False
  | _ => True

/-! ## Chunks -/

theorem chunks_mono {m n : ℕ} (h : m ≤ n) : chunks m ≤ chunks n := Nat.div_le_div_right (Nat.add_le_add_right h _)

/-- A chunk less. -/
theorem chunks_take {n i : ℕ} (h : i < n) : chunks (n - (i + kChunkSize)) + 1 ≤ chunks (n - i) := by
  unfold chunks kChunkSize
  omega

theorem chunksLeft_le (s : Pool) (J : Job) : s.chunksLeft J ≤ chunks J.mItems.length := by
  unfold Pool.chunksLeft
  split
  · exact chunks_mono (Nat.sub_le _ _)
  · exact Nat.zero_le _

theorem chunksLeft_of_queue {s : Pool} {J : Job} {p : ℕ} (hp : J.mQueue = some p) :
    s.chunksLeft J = chunks (J.mItems.length - (s.queues p).mIndex) := by
  unfold Pool.chunksLeft
  rw [hp]

/-- Taking a chunk leaves nobody more of them. -/
theorem chunksLeft_taken (s : Pool) (w p : ℕ) (J : Job) :
    Pool.chunksLeft { s with queues := s.taken w p } J ≤ s.chunksLeft J := by
  cases hq : J.mQueue with
  | none =>
    unfold Pool.chunksLeft
    rw [hq]
  | some p' =>
    have hidx : (s.queues p').mIndex ≤ (s.taken w p p').mIndex := by
      unfold Pool.taken
      by_cases h : p' = p
      · subst h
        rw [Function.update_self]
        exact Nat.le_add_right _ _
      · rw [Function.update_of_ne h]
    rw [chunksLeft_of_queue hq, chunksLeft_of_queue hq]
    exact chunks_mono (Nat.sub_le_sub_left hidx _)

/-! ## A worker's own step -/

theorem count_pos {e : EventSet} (h : e.any = true) : 1 ≤ e.count := by
  unfold EventSet.any at h
  unfold EventSet.count
  cases h1 : e.kStop <;> cases h2 : e.kJob <;> cases h3 : e.kMerge <;> simp_all

theorem count_le (e : EventSet) : e.count ≤ 3 := by
  unfold EventSet.count
  have h1 := Bool.toNat_le e.kStop
  have h2 := Bool.toNat_le e.kJob
  have h3 := Bool.toNat_le e.kMerge
  omega

theorem any_of_wait {b : Build} {s s' : Pool} {w : ℕ} {back : Results} (hpc : (s.workers w).pc = .wait)
    (h : s.workerStep b w back = some s') : (s.workers w).mEvents.any = true := by
  unfold Pool.workerStep at h
  simp only [hpc] at h
  split at h
  · assumption
  · cases h

section

variable {s : Pool} {W : Worker}

theorem work_goto (pc : WorkerPc) : (W.goto pc).work s + W.pc.work W.mergeState.size (s.chunksLeft W.job) =
    W.work s + pc.work W.mergeState.size (s.chunksLeft W.job) := by
  unfold Worker.work Worker.goto
  simp only
  omega

theorem work_setItems (items : List MatchedItem) : (W.setItems items).work s = W.work s := rfl

/-- A worker that goes to a place with less work. -/
theorem work_goto_lt {pc : WorkerPc}
    (h : pc.work W.mergeState.size (s.chunksLeft W.job) < W.pc.work W.mergeState.size (s.chunksLeft W.job)) :
    (W.goto pc).work s < W.work s := by
  have he := work_goto (s := s) (W := W) pc
  omega

theorem work_enterMerge_lt (h : 2 * W.mergeState.size + 2 < W.pc.work W.mergeState.size (s.chunksLeft W.job)) :
    W.enterMerge.work s < W.work s := by
  unfold Worker.enterMerge
  apply work_goto_lt
  split
  · exact lt_of_le_of_lt (Nat.le_add_left 1 _) h
  · exact h

/-- A new job is started on: that was still to do. -/
theorem work_startMatch_lt (hne : W.job.tick ≠ s.main.mJob.tick)
    (h : 2 * W.mergeState.size + 3 ≤ W.pc.work W.mergeState.size (s.chunksLeft W.job)) :
    (W.withJob s.main.mJob).startMatch.work s < W.work s := by
  have hleft := chunksLeft_le s s.main.mJob
  have hpc : (W.withJob s.main.mJob).startMatch.pc = .take ∨ (W.withJob s.main.mJob).startMatch.pc = .publish := by
    unfold Worker.startMatch
    simp only
    split
    · exact .inr rfl
    · split
      · exact .inr rfl
      · exact .inl rfl
  have hwork : (W.withJob s.main.mJob).startMatch.pc.work W.mergeState.size (s.chunksLeft s.main.mJob) ≤
      4 * chunks s.main.mJob.mItems.length + 2 * W.mergeState.size + 3 := by
    rcases hpc with he | he <;> rw [he] <;> simp only [WorkerPc.work] <;> omega
  have he : (W.withJob s.main.mJob).startMatch.work s = 17 + 16 * W.mEvents.count +
      (W.withJob s.main.mJob).startMatch.pc.work W.mergeState.size (s.chunksLeft s.main.mJob) := by
    change (if s.main.mJob.tick = s.main.mJob.tick then 0 else _) + 17 + _ + _ = _
    rw [if_pos rfl, Nat.zero_add]
    rfl
  rw [he]
  unfold Worker.work
  rw [if_neg hne]
  omega

theorem work_react_lt (hm : HistoryOk s.main) (hst : StampOk s.main W) (ev : EventSet) {goOn : Worker → Worker}
    (hgo : (goOn W).work s < W.work s)
    (h : 2 * W.mergeState.size + 3 ≤ W.pc.work W.mergeState.size (s.chunksLeft W.job)) :
    (W.react s.main.mJob ev goOn).work s < W.work s := by
  rcases react_cases hm hst ev goOn with ⟨_, he⟩ | ⟨_, he⟩ | ⟨hlt, he⟩
  · rw [he]
    exact work_goto_lt (lt_of_lt_of_le (Nat.succ_pos _) h)
  · rw [he]
    exact hgo
  · rw [he]
    exact work_startMatch_lt (fun h => hlt.ne h) h

/-- The events a worker gets are worth more than the look at them. -/
theorem work_events_lt {pc : WorkerPc} (h : pc.work W.mergeState.size (s.chunksLeft W.job) <
    W.pc.work W.mergeState.size (s.chunksLeft W.job) + 16 * W.mEvents.count) :
    Worker.work s { W with mEvents := {}, pc := pc } < W.work s := by
  have h0 : ({} : EventSet).count = 0 := rfl
  unfold Worker.work
  simp only [h0]
  omega

theorem work_mergeChild_lt {i : ℕ} (hpc : W.pc = .merging i) (cres : Results) :
    (Pool.mergeChild W i cres).work s < W.work s := by
  have hnext : WorkerPc.work W.mergeState.size (s.chunksLeft W.job) (.merge (i + 1)) <
      W.pc.work W.mergeState.size (s.chunksLeft W.job) := by
    rw [hpc]
    exact Nat.lt_succ_self _
  rcases mergeChild_cases W i cres with ⟨_, he⟩ | ⟨_, he⟩ | ⟨_, he⟩
  · rw [he]
    apply work_goto_lt
    rw [hpc]
    exact Nat.succ_pos _
  · rw [he]
    exact work_goto_lt hnext
  · rw [he]
    exact work_goto_lt (W := W) hnext

/-- **A step of a worker alone does some of its work.** -/
theorem Own.work_lt {b : Build} {back : Results} {W' : Worker} (hm : HistoryOk s.main) (hst : StampOk s.main W)
    (hsize : W.mergeState.size ≤ 6) (hev : W.pc = .wait → W.mEvents.any = true) (h : Own b s back W W') :
    W'.work s < W.work s := by
  cases h with
  | wake hpc =>
    have hcount := count_pos (hev hpc)
    apply work_events_lt
    rw [hpc]
    simp only [WorkerPc.work]
    omega
  | woken hpc =>
    refine work_react_lt hm hst _ (work_enterMerge_lt ?_) ?_ <;> rw [hpc] <;> simp only [WorkerPc.work] <;> omega
  | chunk hpc _ _ =>
    refine work_goto_lt (W := W) ?_
    rw [hpc]
    exact Nat.lt_succ_self _
  | get hpc =>
    apply work_events_lt
    rw [hpc]
    simp only [WorkerPc.work]
    omega
  | got hpc =>
    refine work_react_lt hm hst _ (work_goto_lt ?_) ?_ <;> rw [hpc] <;> simp only [WorkerPc.work] <;> omega
  | skip hpc hi _ =>
    apply work_goto_lt
    rw [hpc]
    simp only [WorkerPc.work]
    omega
  | mergeEnd hpc _ =>
    apply work_goto_lt
    rw [hpc]
    split <;> simp only [WorkerPc.work] <;> omega
  | merging hpc => exact work_mergeChild_lt hpc _
  | already hpc _ =>
    apply work_goto_lt
    rw [hpc]
    exact Nat.succ_pos _
  | publish hpc hp =>
    unfold Worker.work
    rw [hpc, hp]
    simp only [WorkerPc.work, Bool.false_eq_true, if_true, if_false]
    omega

end

/-! ## The other workers -/

theorem WorkerPc.work_mono (pc : WorkerPc) (children : ℕ) {m n : ℕ} (h : m ≤ n) :
    pc.work children m ≤ pc.work children n := by
  cases pc <;> simp only [WorkerPc.work] <;> omega

theorem work_taken (s : Pool) (w p : ℕ) (W : Worker) : W.work { s with queues := s.taken w p } ≤ W.work s :=
  Nat.add_le_add_left (WorkerPc.work_mono _ _ (chunksLeft_taken s w p W.job)) _

/-- An event that is posted is worth at most 16. -/
theorem Touched.work_le {s : Pool} {W W' : Worker} (h : Touched W W') : W'.work s ≤ W.work s + 16 := by
  cases h with
  | same => exact Nat.le_add_right _ _
  | loaded => exact Nat.le_add_right _ _
  | merge =>
    unfold Worker.work EventSet.count
    have h1 := Bool.toNat_le W.mEvents.kMerge
    simp only [Bool.toNat_true]
    omega
  | job =>
    unfold Worker.work EventSet.count
    have h1 := Bool.toNat_le W.mEvents.kJob
    simp only [Bool.toNat_true]
    omega

/-- A worker does some of its work, and leaves less than that to one other. -/
theorem work_lt_of_shift {s s' : Pool} {w p c d : ℕ} (hm : s'.main = s.main) (hw : w < s.main.mWorkersSize) (hc : c < d)
    (hself : (s'.workers w).work s' + d ≤ (s.workers w).work s)
    (hparent : p ≠ w → (s'.workers p).work s' ≤ (s.workers p).work s + c)
    (hother : ∀ u, u ≠ w → u ≠ p → (s'.workers u).work s' ≤ (s.workers u).work s) : s'.work < s.work := by
  unfold Pool.work
  rw [hm]
  refine Nat.add_lt_add_left (sum_lt_of_shift (w := w) (p := p) (Finset.mem_range.2 hw) hc (fun u _ => ?_)) _
  by_cases hu : u = w
  · subst hu
    rw [if_pos rfl]
    omega
  · rw [if_neg hu, Nat.add_zero]
    by_cases hp : u = p
    · subst hp
      rw [if_pos rfl]
      exact hparent hu
    · rw [if_neg hp]
      exact hother u hu hp

theorem work_lt_of_self {s s' : Pool} {w : ℕ} (hm : s'.main = s.main) (hw : w < s.main.mWorkersSize)
    (hself : (s'.workers w).work s' < (s.workers w).work s)
    (hother : ∀ u, u ≠ w → (s'.workers u).work s' ≤ (s.workers u).work s) : s'.work < s.work :=
  work_lt_of_shift (p := w) (c := 0) (d := 1) hm hw Nat.zero_lt_one hself (fun h => absurd rfl h) (fun u hu _ => hother u hu)

theorem work_takeChunk_lt {s : Pool} {w p start stop : ℕ} (hpc : (s.workers w).pc = .take)
    (hp : (s.workers w).job.mQueue = some p) (h : (s.queues p).mIndex < (s.workers w).job.mItems.length) :
    ((s.workers w).goto (.chunk start stop)).work { s with queues := s.taken w p } < (s.workers w).work s := by
  have hleft : Pool.chunksLeft { s with queues := s.taken w p } (s.workers w).job + 1 ≤ s.chunksLeft (s.workers w).job := by
    rw [chunksLeft_of_queue hp, chunksLeft_of_queue hp]
    have hidx : (s.taken w p p).mIndex = (s.queues p).mIndex + kChunkSize := by
      unfold Pool.taken
      rw [Function.update_self]
      rfl
    simp only [hidx]
    exact chunks_take h
  unfold Worker.work Worker.goto
  simp only [hpc, WorkerPc.work]
  omega

theorem WorkerStep.work_lt {b : Build} {s s' : Pool} {w : ℕ} {back : Results} (hw : w < s.main.mWorkersSize)
    (hm : HistoryOk s.main) (hst : StampOk s.main (s.workers w)) (hsize : (s.workers w).mergeState.size ≤ 6)
    (hev : (s.workers w).pc = .wait → (s.workers w).mEvents.any = true) (h : WorkerStep b s w back s') :
    s'.work < s.work := by
  cases h with
  | @own W h =>
    refine work_lt_of_self rfl hw ?_ (fun u hu => ?_)
    · rw [setWorker_self]
      change W.work s < _
      exact h.work_lt hm hst hsize hev
    · rw [setWorker_other hu]
      exact le_rfl
  | @takeChunk p hpc hp hlt =>
    refine work_lt_of_self rfl hw ?_ (fun u hu => ?_)
    · rw [setWorker_self]
      exact work_takeChunk_lt hpc hp hlt
    · rw [setWorker_other hu]
      exact work_taken s w p (s.workers u)
  | @takeEnd p hpc hp hle =>
    refine work_lt_of_self rfl hw ?_ (fun u hu => ?_)
    · rw [setWorker_self]
      refine (work_taken s w p _).trans_lt ?_
      rw [← work_setItems (W := s.workers w) (sortItems (s.workers w).out.mItems)]
      apply work_enterMerge_lt
      change _ < (s.workers w).pc.work _ _
      rw [hpc]
      simp only [WorkerPc.work]
      omega
    · rw [setWorker_other hu]
      exact work_taken s w p (s.workers u)
  | @load i hpc hi hc =>
    refine work_lt_of_self rfl hw ?_ (fun u hu => ?_)
    · rw [setWorker_self]
      refine work_goto_lt (s := s) ?_
      rw [hpc]
      simp only [WorkerPc.work]
      omega
    · rw [setWorker_other hu]
      by_cases hcu : u = (s.workers w).mergeState.child i
      · subst hcu
        rw [setWorker_self]
        exact le_rfl
      · rw [setWorker_other hcu]
        exact le_rfl
  | notifyMain hpc _ =>
    refine work_lt_of_self rfl hw ?_ (fun u hu => ?_)
    · rw [setWorker_self]
      refine work_goto_lt (s := s) ?_
      rw [hpc]
      exact Nat.succ_pos _
    · rw [setWorker_other hu]
      exact le_rfl
  | notifyParent hpc _ hp =>
    refine work_lt_of_shift (p := parent w) (c := 16) (d := 17) rfl hw (Nat.lt_succ_self _) ?_ (fun _ => ?_)
      (fun u hu hup => ?_)
    · rw [setWorker_other hp, setWorker_self]
      have he := work_goto (s := s) (W := s.workers w) .wait
      rw [hpc] at he
      exact he.le
    · rw [setWorker_self]
      exact Touched.merge.work_le
    · rw [setWorker_other hup, setWorker_other hu]
      exact le_rfl

/-! ## The main thread -/

/-- The steps of the main thread between calls. -/
theorem mainStep_cases {s s' : Pool} (h : s.mainStep = some s') :
    (∃ k, s.main.pc = .posting k ∧ k < s.main.mWorkersSize ∧
      s' = { s.setWorker k { s.workers k with mEvents := { (s.workers k).mEvents with kJob := true } } with
             main := { s.main with pc := .posting (k + 1) } }) ∨
      (∃ k, s.main.pc = .posting k ∧ s' = { s with main := { s.main with pc := .idle } }) ∨ StopStep s s' := by
  unfold Pool.mainStep at h
  cases hpc : s.main.pc with
  | idle =>
    simp only [hpc] at h
    cases h
  | posting k =>
    simp only [hpc] at h
    split at h
    · rename_i hk
      exact .inl ⟨k, rfl, hk, (Option.some.inj h).symm⟩
    · exact .inr (.inl ⟨k, rfl, (Option.some.inj h).symm⟩)
  | stopping k =>
    simp only [hpc] at h
    right
    right
    split at h
    · rename_i hk
      rw [← Option.some.inj h]
      exact .post hpc hk
    · rename_i hk
      rw [← Option.some.inj h]
      exact .posted hpc (Nat.le_of_not_lt hk)
  | joining k =>
    simp only [hpc] at h
    right
    right
    split at h
    · rename_i hk
      split at h
      · rename_i hw
        rw [← Option.some.inj h]
        exact .join hpc hk hw
      · cases h
    · rename_i hk
      rw [← Option.some.inj h]
      exact .joined hpc (Nat.le_of_not_lt hk)

/-- The main thread posts one event. -/
theorem work_lt_of_post {s s' : Pool} {k : ℕ} (hn : s'.main.mWorkersSize = s.main.mWorkersSize)
    (hm : s'.main.work + 17 ≤ s.main.work) (hself : (s'.workers k).work s' ≤ (s.workers k).work s + 16)
    (hother : ∀ u, u ≠ k → (s'.workers u).work s' ≤ (s.workers u).work s) : s'.work < s.work := by
  unfold Pool.work
  rw [hn]
  have hsum : ∑ u ∈ Finset.range s.main.mWorkersSize, (s'.workers u).work s' ≤
      ∑ u ∈ Finset.range s.main.mWorkersSize, (s.workers u).work s + 16 := by
    refine sum_le_of_gain (p := k) (fun u _ => ?_)
    by_cases hu : u = k
    · subst hu
      rwa [if_pos rfl]
    · rw [if_neg hu]
      exact hother u hu
  omega

theorem mainStep_work_lt {s s' : Pool} (h : s.mainStep = some s') : s'.work < s.work := by
  rcases mainStep_cases h with ⟨k, hpc, hk, rfl⟩ | ⟨k, hpc, rfl⟩ | hs
  · refine work_lt_of_post (k := k) rfl ?_ ?_ (fun u hu => ?_)
    · unfold Main.work
      simp only [hpc]
      omega
    · change ((s.setWorker k _).workers k).work s ≤ _
      rw [setWorker_self]
      exact Touched.job.work_le
    · change ((s.setWorker k _).workers u).work s ≤ _
      rw [setWorker_other hu]
  · unfold Pool.work Main.work
    simp only [hpc]
    exact Nat.add_lt_add_right (Nat.succ_pos _) _
  · cases hs with
    | @post k hpc hk =>
      refine work_lt_of_post (k := k) rfl ?_ ?_ (fun u hu => ?_)
      · unfold Main.work
        simp only [hpc]
        omega
      · change ((s.setWorker k _).workers k).work s ≤ _
        rw [setWorker_self]
        unfold Worker.work EventSet.count
        have h1 := Bool.toNat_le (s.workers k).mEvents.kStop
        simp only [Bool.toNat_true]
        omega
      · change ((s.setWorker k _).workers u).work s ≤ _
        rw [setWorker_other hu]
    | posted hpc hk =>
      unfold Pool.work Main.work
      simp only [hpc]
      refine Nat.add_lt_add_right ?_ _
      omega
    | join hpc hk _ =>
      unfold Pool.work Main.work
      simp only [hpc]
      refine Nat.add_lt_add_right ?_ _
      omega
    | joined hpc hk =>
      unfold Pool.work Main.work
      simp only [hpc, Finset.range_zero, Finset.sum_empty]
      omega

/-! ## Runs -/

theorem mergeState_react (W : Worker) (mJob : Job) (ev : EventSet) {goOn : Worker → Worker}
    (hgo : ∀ W : Worker, (goOn W).mergeState = W.mergeState) :
    (W.react mJob ev goOn).mergeState = W.mergeState ∨ (W.react mJob ev goOn).mergeState = W.mergeState.reset := by
  unfold Worker.react
  split
  · exact .inl rfl
  · split
    · change (if (W.loadJob mJob).2 then (W.loadJob mJob).1.startMatch else goOn (W.loadJob mJob).1).mergeState = _ ∨
        (if (W.loadJob mJob).2 then (W.loadJob mJob).1.startMatch else goOn (W.loadJob mJob).1).mergeState = _
      split
      · exact .inr rfl
      · exact .inl (hgo _)
    · exact .inl (hgo _)

/-- A worker's children stay who they are. -/
def SameTree (m m' : MergeState) : Prop := m'.mIndex = m.mIndex ∧ m'.mCount = m.mCount

theorem SelfStep.sameTree {b : Build} {s : Pool} {back : Results} {W W' : Worker} (h : SelfStep b s back W W') :
    SameTree W.mergeState W'.mergeState := by
  have hreset : ∀ {m : MergeState}, m = W.mergeState ∨ m = W.mergeState.reset → SameTree W.mergeState m := by
    rintro m (rfl | rfl) <;> exact ⟨rfl, rfl⟩
  cases h with
  | own ho =>
    cases ho with
    | woken _ => exact hreset (mergeState_react W _ _ (fun _ => rfl))
    | got _ => exact hreset (mergeState_react W _ _ (fun _ => rfl))
    | @merging i _ =>
      rcases mergeChild_cases W i (s.workers (W.mergeState.child i)).mOutput.readBuffer with ⟨_, he⟩ | ⟨_, he⟩ | ⟨_, he⟩ <;>
        exact he ▸ ⟨rfl, rfl⟩
    | _ => exact ⟨rfl, rfl⟩
  | _ => exact ⟨rfl, rfl⟩

theorem SelfStep.size_eq {b : Build} {s : Pool} {back : Results} {W W' : Worker} (h : SelfStep b s back W W') :
    W'.mergeState.size = W.mergeState.size := h.sameTree.2

/-- No worker has more than six children. -/
def ChildrenOk (s : Pool) : Prop := ∀ w, (s.workers w).mergeState.size ≤ 6

theorem ChildrenOk.step {b : Build} {s s' : Pool} {a : Pool.Action} (hr : RunOk s) (h : ChildrenOk s)
    (hs : s.step b a = some s') : ChildrenOk s' := by
  have hnew : ∀ w n, (Worker.new w n).mergeState.size ≤ 6 := fun w n => (MergeState.new_spec w n).2.1.trans (maxChildren_le w)
  intro w
  cases step_cases hr.jobs hr.size hs with
  | live hl =>
    rcases hl.touched_or_worker with ⟨ht, _, _⟩ | ⟨u, back, _, hu⟩
    · rw [(ht w).mergeState_eq]
      exact h w
    · by_cases hw : w = u
      · subst hw
        rw [hu.self.size_eq]
        exact h w
      · rw [(hu.touched hw).mergeState_eq]
        exact h w
  | start _ _ => exact hnew w _
  | stop _ _ => exact h w
  | stopping hs =>
    cases hs with
    | @post k _ _ =>
      change ((s.setWorker k _).workers w).mergeState.size ≤ 6
      by_cases hw : w = k
      · subst hw
        rw [setWorker_self]
        exact h w
      · rw [setWorker_other hw]
        exact h w
    | _ => exact h w

structure RestOk (s : Pool) : Prop where
  ok : RunOk s
  children : ChildrenOk s

theorem RestOk.step {b : Build} {s s' : Pool} {a : Pool.Action} (h : RestOk s) (hs : s.step b a = some s') : RestOk s' :=
  ⟨h.ok.step hs, h.children.step h.ok hs⟩

theorem restOk_init (hardwareConcurrency : ℕ) : RestOk (Pool.init hardwareConcurrency) :=
  ⟨runOk_init _, fun w => (MergeState.new_spec w 0).2.1.trans (maxChildren_le w)⟩

/-- **Every step between two calls does some of the work.** -/
theorem RestOk.work_lt {b : Build} {s s' : Pool} {a : Pool.Action} (h : RestOk s) (ha : a.Internal)
    (hs : s.step b a = some s') : s'.work < s.work := by
  unfold Pool.step at hs
  cases a with
  | call c => exact ha.elim
  | main => exact mainStep_work_lt hs
  | worker w back =>
    simp only at hs
    split at hs
    · rename_i hw
      exact (workerStep_cases (hw.trans_le h.ok.size) hs).work_lt hw h.ok.jobs.toHistoryOk (h.ok.stamp w) (h.children w)
        (fun hpc => any_of_wait hpc hs)
    · cases hs

/-! ## The bound -/

theorem WorkerPc.work_le (pc : WorkerPc) {children : ℕ} (left : ℕ) (h : children ≤ 6) :
    pc.work children left ≤ 4 * left + 18 := by
  cases pc <;> simp only [WorkerPc.work] <;> omega

theorem RestOk.worker_work_le {s : Pool} (h : RestOk s) (w : ℕ) :
    (s.workers w).work s ≤ 8 * chunks s.main.mItems.length + 101 := by
  have hmJob : chunks s.main.mJob.mItems.length ≤ chunks s.main.mItems.length :=
    chunks_mono h.ok.jobs.items.length_le
  have hjob : s.chunksLeft (s.workers w).job ≤ chunks s.main.mItems.length := by
    refine (chunksLeft_le s _).trans ((chunks_mono ?_).trans hmJob)
    exact (h.ok.jobs.le_current (h.ok.stamp w).job).1
  have hpc := (s.workers w).pc.work_le (s.chunksLeft (s.workers w).job) (h.children w)
  have hcount := count_le (s.workers w).mEvents
  unfold Worker.work
  split <;> split <;> omega

theorem RestOk.work_le {s : Pool} (h : RestOk s) :
    s.work ≤ s.main.mWorkersSize * (8 * chunks s.main.mItems.length + 119) + 3 := by
  have hsum : ∑ w ∈ Finset.range s.main.mWorkersSize, (s.workers w).work s ≤
      s.main.mWorkersSize * (8 * chunks s.main.mItems.length + 101) := by
    have hle := Finset.sum_le_card_nsmul (Finset.range s.main.mWorkersSize) (fun w => (s.workers w).work s) _
      (fun w _ => h.worker_work_le w)
    rwa [Finset.card_range, smul_eq_mul] at hle
  have hmain : s.main.work ≤ 18 * s.main.mWorkersSize + 3 := by
    unfold Main.work
    split <;> omega
  have he : s.main.mWorkersSize * (8 * chunks s.main.mItems.length + 119) =
      s.main.mWorkersSize * (8 * chunks s.main.mItems.length + 101) + 18 * s.main.mWorkersSize := by ring
  unfold Pool.work
  omega

/-- **Between two calls the pool comes to rest**: from every state of every run, whatever the calls before were, the threads
take a bounded number of steps in any order, linear in the chunks of the items. -/
theorem steps_bounded (b : Build) (hardwareConcurrency : ℕ) (as bs : List Pool.Action) (s t : Pool)
    (hrun : run (Pool.step b) (Pool.init hardwareConcurrency) as = some s) (hint : ∀ a ∈ bs, a.Internal)
    (hgo : run (Pool.step b) s bs = some t) :
    bs.length ≤ s.main.mWorkersSize * (8 * chunks s.main.mItems.length + 119) + 3 := by
  have h : RestOk s := run_inv RestOk (fun _ _ _ h hs => h.step hs) as _ s (restOk_init _) hrun
  have hlt : ∀ s a t, a.Internal → RestOk s → Pool.step b s a = some t → t.work < s.work :=
    fun _ _ _ ha h hs => h.work_lt ha hs
  have hle := run_length_le (fun _ _ _ _ h hs => h.step hs) hlt bs s t hint h hgo
  have hb := h.work_le
  omega

/-- The sample's steps after its last call. -/
def sampleSteps : List Pool.Action :=
  List.replicate 3 .main ++ List.replicate 10 (.worker 0 {}) ++ List.replicate 5 (.worker 1 {}) ++
    List.replicate 7 (.worker 0 {})

theorem sampleSteps_internal : ∀ a ∈ sampleSteps, a.Internal := by
  intro a ha
  simp only [sampleSteps, List.mem_append, List.mem_replicate] at ha
  rcases ha with ((⟨_, rfl⟩ | ⟨_, rfl⟩) | ⟨_, rfl⟩) | ⟨_, rfl⟩ <;> trivial

theorem sampleSteps_run : ∃ s, run (Pool.step .scalar) (Pool.init 2)
      (samplePre ++ [.call .start, .call (.setQuery [39, 97])]) = some s ∧
    run (Pool.step .scalar) s sampleSteps = some sample := run_append_eq_some.1 sample_run

theorem steps_bounded_sample : ∃ s : Pool, run (Pool.step .scalar) (Pool.init 2)
      (samplePre ++ [.call .start, .call (.setQuery [39, 97])]) = some s ∧
    run (Pool.step .scalar) s sampleSteps = some sample ∧
    sampleSteps.length ≤ s.main.mWorkersSize * (8 * chunks s.main.mItems.length + 119) + 3 := by
  obtain ⟨s, hs, hr⟩ := sampleSteps_run
  exact ⟨s, hs, hr, steps_bounded .scalar 2 _ sampleSteps s sample hs sampleSteps_internal hr⟩

end Fzx
