import Fzx.PoolStamp
/-!
# PoolWake — no update is lost

A worker asleep with unpublished results of its job is always woken: a child it has not merged is still to commit
results for the job, or is about to post `kMerge`, or has (`WakeOk`).  And each worker has the current job, or the event
that makes it load the job is on its way (`Aware`).  So in a pool at rest every worker has the current job and, from the
leaves of the merge tree up, has published its results (`no_update_lost`).
-/
namespace Fzx

open Lib

/-! ## What is on its way -/

/-- The worker is about to look at a `kJob` event it got. -/
def WorkerPc.sawJob : WorkerPc → Bool
  | .woken ev | .got ev => ev.kJob
  | _ => false

/-- The worker has the current job or will load it. -/
def Aware (s : Pool) (w : ℕ) : Prop :=
  (s.workers w).job = s.main.mJob ∨ (s.workers w).mEvents.kJob = true ∨ (∃ k ≤ w, s.main.pc = .posting k) ∨
    (s.workers w).pc.sawJob = true

/-- The `i`-th child is about to post `kMerge`, or the event is there. -/
def Coming (s : Pool) (w i : ℕ) : Prop :=
  (s.workers (w + 2 ^ i)).pc = .notify ∨ (s.workers w).mEvents.kMerge = true

/-- The `i`-th child has no results for the worker's job yet, or the news of them is coming. -/
def Pending (s : Pool) (w i : ℕ) : Prop :=
  (s.workers (w + 2 ^ i)).mOutput.committed.tick ≠ (s.workers w).job.tick ∨ Coming s w i

/-- The children before `k` that are not merged are pending. -/
def PendingBelow (s : Pool) (w k : ℕ) : Prop :=
  ∀ i < k, i < (s.workers w).mergeState.size → (s.workers w).mergeState.contains i = false → Pending s w i

/-- What was loaded from the `i`-th child is its last commit, or the news of a later one is coming. -/
def Loaded (s : Pool) (w i : ℕ) : Prop :=
  (s.workers (w + 2 ^ i)).mOutput.readBuffer.tick = (s.workers (w + 2 ^ i)).mOutput.committed.tick ∨ Coming s w i

/-- A worker waits for something that will come. -/
def Waits (s : Pool) (w : ℕ) : Prop :=
  (s.workers w).job.tick = 0 ∨ ∃ i < (s.workers w).mergeState.size,
    (s.workers w).mergeState.contains i = false ∧ Pending s w i

structure WakeOk (s : Pool) (w : ℕ) : Prop where
  wait : (s.workers w).published = false → (s.workers w).pc = .wait → Waits s w
  merge : ∀ k, (s.workers w).published = false → (s.workers w).pc = .merge k → PendingBelow s w k
  merging : ∀ k, (s.workers w).published = false → (s.workers w).pc = .merging k →
    PendingBelow s w k ∧ k < (s.workers w).mergeState.size ∧ (s.workers w).mergeState.contains k = false ∧ Loaded s w k

structure WakeInv (s : Pool) : Prop where
  stamps : Stamps s
  aware : ∀ w < s.main.mWorkersSize, Aware s w
  wake : ∀ w < s.main.mWorkersSize, WakeOk s w

/-! ## Awareness -/

theorem Touched.kJob {W W' : Worker} (ht : Touched W W') (h : W.mEvents.kJob = true) : W'.mEvents.kJob = true := by
  cases ht <;> first | exact h | rfl

theorem Touched.kMerge {W W' : Worker} (ht : Touched W W') (h : W.mEvents.kMerge = true) :
    W'.mEvents.kMerge = true := by
  cases ht <;> first | exact h | rfl

theorem Touched.pc {W W' : Worker} (ht : Touched W W') : W'.pc = W.pc := by cases ht <;> rfl

theorem Touched.job_eq {W W' : Worker} (ht : Touched W W') : W'.job = W.job := by cases ht <;> rfl

theorem Touched.published {W W' : Worker} (ht : Touched W W') : W'.published = W.published := by cases ht <;> rfl

theorem Touched.committed {W W' : Worker} (ht : Touched W W') : W'.mOutput.committed = W.mOutput.committed := by
  cases ht <;> rfl

theorem Touched.out_eq {W W' : Worker} (ht : Touched W W') : W'.out = W.out := by cases ht <;> rfl

theorem Touched.readBuffer {W W' : Worker} (ht : Touched W W') :
    W'.mOutput.readBuffer = W.mOutput.readBuffer ∨ W'.mOutput.readBuffer = W.mOutput.committed := by
  cases ht with
  | same => exact .inl rfl
  | loaded => exact .inr rfl
  | merge => exact .inl rfl
  | job => exact .inl rfl

theorem Aware.touched {s s' : Pool} {w : ℕ} (h : Aware s w) (hj : s'.main.mJob = s.main.mJob)
    (hp : ∀ k ≤ w, s.main.pc = .posting k → ∃ k ≤ w, s'.main.pc = .posting k)
    (ht : Touched (s.workers w) (s'.workers w)) : Aware s' w := by
  unfold Aware at *
  rw [ht.job_eq, ht.pc, hj]
  rcases h with h | h | ⟨k, hk, h⟩ | h
  · exact .inl h
  · exact .inr (.inl (ht.kJob h))
  · exact .inr (.inr (.inl (hp k hk h)))
  · exact .inr (.inr (.inr h))

/-- Going on without looking at events. -/
theorem Aware.goOn {s s' : Pool} {w : ℕ} {W : Worker} (h : Aware s w) (hm : s'.main = s.main) (hW : s'.workers w = W)
    (hj : W.job = (s.workers w).job) (he : W.mEvents = (s.workers w).mEvents)
    (hp : (s.workers w).pc.sawJob = true → (s.workers w).job = s.main.mJob) : Aware s' w := by
  unfold Aware at *
  rw [hW, hj, he, hm]
  rcases h with h | h | h | h
  · exact .inl h
  · exact .inr (.inl h)
  · exact .inr (.inr (.inl h))
  · exact .inl (hp h)

/-- Getting the events. -/
theorem Aware.events {s s' : Pool} {w : ℕ} {W : Worker} (h : Aware s w) (hm : s'.main = s.main) (hW : s'.workers w = W)
    (hj : W.job = (s.workers w).job) (he : (s.workers w).mEvents.kJob = true → W.pc.sawJob = true)
    (hp : (s.workers w).pc.sawJob = false) : Aware s' w := by
  unfold Aware at *
  rw [hW, hj, hm]
  rcases h with h | h | h | h
  · exact .inl h
  · exact .inr (.inr (.inr (he h)))
  · exact .inr (.inr (.inl h))
  · rw [hp] at h
    cases h

theorem Aware.react {s : Pool} {w : ℕ} (hl : HistoryOk s.main) (hst : StampOk s.main (s.workers w)) (h : Aware s w)
    {ev : EventSet} (hpc : (s.workers w).pc.sawJob = ev.kJob) {goOn : Worker → Worker}
    (hgj : ∀ W : Worker, (goOn W).job = W.job) (hge : ∀ W : Worker, (goOn W).mEvents = W.mEvents)
    (hs : ev.kStop = false) : Aware (s.setWorker w ((s.workers w).react s.main.mJob ev goOn)) w := by
  rcases react_cases hl hst ev goOn with ⟨h', _⟩ | ⟨hj, he⟩ | ⟨_, he⟩
  · rw [hs] at h'
    cases h'
  · rw [he]
    exact h.goOn rfl (setWorker_self ..) (hgj _) (hge _) (fun hsaw => hj (hpc ▸ hsaw))
  · rw [he]
    left
    rw [setWorker_self]
    rfl

theorem mergeChild_keeps (W : Worker) (i : ℕ) (cres : Results) :
    (Pool.mergeChild W i cres).job = W.job ∧ (Pool.mergeChild W i cres).mEvents = W.mEvents ∧
      (Pool.mergeChild W i cres).mOutput.committed = W.mOutput.committed ∧
      (Pool.mergeChild W i cres).mOutput.readBuffer = W.mOutput.readBuffer := by
  rcases mergeChild_cases W i cres with ⟨_, he⟩ | ⟨_, he⟩ | ⟨_, he⟩ <;>
    · rw [he]
      exact ⟨rfl, rfl, rfl, rfl⟩

theorem WorkerStep.aware {b : Build} {s s' : Pool} {w : ℕ} {back : Results} (hl : Live s)
    (hst : StampOk s.main (s.workers w)) (h : Aware s w) (hs : WorkerStep b s w back s') : Aware s' w := by
  have hrun := (hl.runs w).pc
  have hsaw : ∀ {pc : WorkerPc}, (s.workers w).pc = pc → pc.sawJob = false →
      (s.workers w).pc.sawJob = true → (s.workers w).job = s.main.mJob := by
    intro pc hpc hf ht
    rw [hpc, hf] at ht
    cases ht
  cases hs with
  | own ho =>
    cases ho with
    | wake hpc => exact h.events rfl (setWorker_self ..) rfl id (by rw [hpc]; rfl)
    | woken hpc =>
      rw [hpc] at hrun
      exact h.react hl.jobs.toHistoryOk hst (by rw [hpc]; rfl) (fun _ => rfl) (fun _ => rfl) hrun
    | chunk hpc _ _ => exact h.goOn rfl (setWorker_self ..) rfl rfl (hsaw hpc rfl)
    | get hpc => exact h.events rfl (setWorker_self ..) rfl id (by rw [hpc]; rfl)
    | got hpc =>
      rw [hpc] at hrun
      exact h.react hl.jobs.toHistoryOk hst (by rw [hpc]; rfl) (fun _ => rfl) (fun _ => rfl) hrun
    | skip hpc _ _ => exact h.goOn rfl (setWorker_self ..) rfl rfl (hsaw hpc rfl)
    | mergeEnd hpc _ => exact h.goOn rfl (setWorker_self ..) rfl rfl (hsaw hpc rfl)
    | merging hpc =>
      exact h.goOn rfl (setWorker_self ..) (mergeChild_keeps _ _ _).1 (mergeChild_keeps _ _ _).2.1 (hsaw hpc rfl)
    | already hpc _ => exact h.goOn rfl (setWorker_self ..) rfl rfl (hsaw hpc rfl)
    | publish hpc _ => exact h.goOn rfl (setWorker_self ..) rfl rfl (hsaw hpc rfl)
  | takeChunk hpc _ _ => exact h.goOn rfl (setWorker_self ..) rfl rfl (hsaw hpc rfl)
  | takeEnd hpc _ _ => exact h.goOn rfl (setWorker_self ..) rfl rfl (hsaw hpc rfl)
  | load hpc _ _ => exact h.goOn rfl (setWorker_self ..) rfl rfl (hsaw hpc rfl)
  | notifyMain hpc _ => exact h.goOn rfl (setWorker_self ..) rfl rfl (hsaw hpc rfl)
  | notifyParent hpc _ hp =>
    exact h.goOn rfl ((setWorker_other hp _).trans (setWorker_self ..)) rfl rfl (hsaw hpc rfl)

theorem LiveStep.aware {b : Build} {s s' : Pool} {w : ℕ} (hl : Live s) (hst : ∀ u, StampOk s.main (s.workers u))
    (hw : w < s.main.mWorkersSize) (h : Aware s w) (hs : LiveStep b s s') : Aware s' w := by
  cases hs with
  | newJob hn => exact .inr (.inr (.inl ⟨0, Nat.zero_le w, hn.pc⟩))
  | quiet hq => exact h.touched hq.mJob (fun k hk hp => ⟨k, hk, hq.pc.trans hp⟩) (.of_eq (congrFun hq.workers w))
  | loadResults => exact h.touched rfl (fun k hk hp => ⟨k, hk, hp⟩) (touched_setWorker .loaded w)
  | @post k hpc hk =>
    by_cases he : w = k
    · subst he
      refine .inr (.inl ?_)
      change ((s.setWorker w _).workers w).mEvents.kJob = true
      rw [setWorker_self]
    · refine h.touched rfl (fun k' hk' hp => ?_) (touched_setWorker .job w)
      cases hpc.symm.trans hp
      exact ⟨k + 1, by omega, rfl⟩
  | @posted k hpc hk =>
    refine h.touched rfl (fun k' hk' hp => ?_) .same
    cases hpc.symm.trans hp
    omega
  | @worker s' u back hu hs =>
    by_cases he : w = u
    · subst he
      exact hs.aware hl (hst w) h
    · exact h.touched (congrArg Main.mJob hs.main) (fun k hk hp => ⟨k, hk, (congrArg Main.pc hs.main).trans hp⟩)
        (hs.touched he)

/-! ## What comes keeps coming -/

section

variable {s s' : Pool} {w i : ℕ}

theorem Coming.touched (h : Coming s w i) (hc : Touched (s.workers (w + 2 ^ i)) (s'.workers (w + 2 ^ i)))
    (hk : (s.workers w).mEvents.kMerge = true → (s'.workers w).mEvents.kMerge = true) : Coming s' w i := by
  unfold Coming at *
  rw [hc.pc]
  exact h.imp_right hk

theorem Pending.touched (h : Pending s w i) (hc : Touched (s.workers (w + 2 ^ i)) (s'.workers (w + 2 ^ i)))
    (hj : (s'.workers w).job = (s.workers w).job)
    (hk : (s.workers w).mEvents.kMerge = true → (s'.workers w).mEvents.kMerge = true) : Pending s' w i := by
  unfold Pending at *
  rw [hc.committed, hj]
  exact h.imp_right (fun h => h.touched hc hk)

theorem Touched.readTick {W W' : Worker} (ht : Touched W W')
    (h : W.mOutput.readBuffer.tick = W.mOutput.committed.tick) :
    W'.mOutput.readBuffer.tick = W'.mOutput.committed.tick := by
  cases ht <;> first | exact h | rfl

theorem Loaded.touched (h : Loaded s w i) (hc : Touched (s.workers (w + 2 ^ i)) (s'.workers (w + 2 ^ i)))
    (hk : (s.workers w).mEvents.kMerge = true → (s'.workers w).mEvents.kMerge = true) : Loaded s' w i :=
  h.imp hc.readTick (fun h => h.touched hc hk)

/-- A worker's committed results change only when it publishes and goes on to notify its parent. -/
theorem Own.output {b : Build} {back : Results} {W W' : Worker} (hm : HistoryOk s.main) (hst : StampOk s.main W)
    (h : Own b s back W W') : W.pc ≠ .notify ∧ W'.mOutput.readBuffer = W.mOutput.readBuffer ∧
      ((W.pc = .publish ∧ W.published = false ∧ W'.pc = .notify ∧ W'.mOutput.committed = W.out) ∨
        W'.mOutput.committed = W.mOutput.committed) := by
  cases h with
  | wake hpc => exact ⟨by rw [hpc]; nofun, rfl, .inr rfl⟩
  | @woken ev hpc =>
    refine ⟨by rw [hpc]; nofun, ?_⟩
    rcases react_cases hm hst ev Worker.enterMerge with ⟨_, he⟩ | ⟨_, he⟩ | ⟨_, he⟩ <;>
      · rw [he]
        exact ⟨rfl, .inr rfl⟩
  | chunk hpc _ _ => exact ⟨by rw [hpc]; nofun, rfl, .inr rfl⟩
  | get hpc => exact ⟨by rw [hpc]; nofun, rfl, .inr rfl⟩
  | @got ev hpc =>
    refine ⟨by rw [hpc]; nofun, ?_⟩
    rcases react_cases hm hst ev (fun W => W.goto .take) with ⟨_, he⟩ | ⟨_, he⟩ | ⟨_, he⟩ <;>
      · rw [he]
        exact ⟨rfl, .inr rfl⟩
  | skip hpc _ _ => exact ⟨by rw [hpc]; nofun, rfl, .inr rfl⟩
  | mergeEnd hpc _ => exact ⟨by rw [hpc]; nofun, rfl, .inr rfl⟩
  | merging hpc =>
    obtain ⟨_, _, hc, hr⟩ := mergeChild_keeps W _ _
    exact ⟨by rw [hpc]; nofun, hr, .inr hc⟩
  | already hpc _ => exact ⟨by rw [hpc]; nofun, rfl, .inr rfl⟩
  | publish hpc hp => exact ⟨by rw [hpc]; nofun, rfl, .inl ⟨hpc, hp, rfl, rfl⟩⟩

/-- What a step of the worker itself does to its output. -/
theorem WorkerStep.output {b : Build} {back : Results} (hm : HistoryOk s.main) (hst : StampOk s.main (s.workers w))
    (h : WorkerStep b s w back s') : (s'.workers w).mOutput.readBuffer = (s.workers w).mOutput.readBuffer ∧
      (((s.workers w).pc = .publish ∧ (s.workers w).published = false ∧ (s'.workers w).pc = .notify ∧
          (s'.workers w).mOutput.committed = (s.workers w).out) ∨
        ((s'.workers w).mOutput.committed = (s.workers w).mOutput.committed ∧
          ((s.workers w).pc = .notify → w ≠ 0 → (s'.workers (parent w)).mEvents.kMerge = true))) := by
  cases h with
  | own ho =>
    obtain ⟨hpc, hread, hout⟩ := ho.output hm hst
    rw [setWorker_self]
    exact ⟨hread, hout.imp_right (fun h => ⟨h, fun hn => absurd hn hpc⟩)⟩
  | takeChunk hpc _ _ =>
    rw [setWorker_self]
    exact ⟨rfl, .inr ⟨rfl, fun hn => by rw [hpc] at hn; cases hn⟩⟩
  | takeEnd hpc _ _ =>
    rw [setWorker_self]
    exact ⟨rfl, .inr ⟨rfl, fun hn => by rw [hpc] at hn; cases hn⟩⟩
  | load hpc _ _ =>
    rw [setWorker_self]
    exact ⟨rfl, .inr ⟨rfl, fun hn => by rw [hpc] at hn; cases hn⟩⟩
  | notifyMain _ h0 =>
    rw [setWorker_self]
    exact ⟨rfl, .inr ⟨rfl, fun _ hne => absurd h0 hne⟩⟩
  | notifyParent _ _ hp =>
    rw [setWorker_other hp, setWorker_self, setWorker_self]
    exact ⟨rfl, .inr ⟨rfl, fun _ _ => rfl⟩⟩

end

/-! ## Waiting is for something -/

/-- What is pending for a worker that does not move stays so. -/
structure Stays (s s' : Pool) (w : ℕ) : Prop where
  self : Touched (s.workers w) (s'.workers w)
  pending : ∀ i < (s.workers w).mergeState.size, Pending s w i → Pending s' w i
  loaded : ∀ i < (s.workers w).mergeState.size, Loaded s w i → Loaded s' w i

theorem Stays.wakeOk {s s' : Pool} {w : ℕ} (hs : Stays s s' w) (h : WakeOk s w) : WakeOk s' w where
  wait := by
    rw [hs.self.published, hs.self.pc]
    intro hp hpc
    unfold Waits
    rw [hs.self.job_eq, hs.self.mergeState_eq]
    exact (h.wait hp hpc).imp_right (fun ⟨i, hi, hc, h⟩ => ⟨i, hi, hc, hs.pending i hi h⟩)
  merge := by
    rw [hs.self.published, hs.self.pc]
    intro k hp hpc i hik hi hc
    rw [hs.self.mergeState_eq] at hi hc
    exact hs.pending i hi (h.merge k hp hpc i hik hi hc)
  merging := by
    rw [hs.self.published, hs.self.pc]
    intro k hp hpc
    obtain ⟨hb, hk, hc, hL⟩ := h.merging k hp hpc
    rw [hs.self.mergeState_eq]
    refine ⟨fun i hik hi hc' => ?_, hk, hc, hs.loaded k hk hL⟩
    rw [hs.self.mergeState_eq] at hi hc'
    exact hs.pending i hi (hb i hik hi hc')

/-- No child of `w` moves. -/
theorem stays_of_touched {s s' : Pool} {w : ℕ} (h : ∀ u, Touched (s.workers u) (s'.workers u)) : Stays s s' w where
  self := h w
  pending := fun _ _ hp => hp.touched (h _) (h w).job_eq (h w).kMerge
  loaded := fun _ _ hL => hL.touched (h _) (h w).kMerge

/-- Another worker moves: if it is a child, either its results do not change or it will notify. -/
theorem WorkerStep.stays {b : Build} {s s' : Pool} {w u : ℕ} {back : Results} (hl : Live s) (hst : Stamps s)
    (hw : w < s.main.mWorkersSize) (hs : WorkerStep b s u back s') (hu : w ≠ u) : Stays s s' w := by
  have hself := hs.touched hu
  have hwf := hst.merge w
  have hcoming : ∀ i < (s.workers w).mergeState.size, u = w + 2 ^ i → (s.workers u).pc = .notify →
      (s'.workers u).pc = .notify ∨ (s'.workers w).mEvents.kMerge = true := by
    intro i hi he hn
    have hpar : parent u = w := by
      rw [he, ← hwf.child_eq]
      exact hwf.parent_child (hw.trans_le hl.size) hi
    rcases (hs.output hl.jobs.toHistoryOk (hst.stamp u)).2 with ⟨_, _, h, _⟩ | ⟨_, h⟩
    · exact .inl h
    · rw [hpar] at h
      have hpos := Nat.two_pow_pos i
      exact .inr (h hn (by omega))
  have hC : ∀ i < (s.workers w).mergeState.size, u = w + 2 ^ i → Coming s w i → Coming s' w i := by
    intro i hi he h
    unfold Coming at *
    rw [← he] at h ⊢
    exact h.elim (hcoming i hi he) (fun h => .inr (hself.kMerge h))
  refine ⟨hself, fun i hi hp => ?_, fun i hi hL => ?_⟩
  · by_cases he : u = w + 2 ^ i
    · rcases (hs.output hl.jobs.toHistoryOk (hst.stamp u)).2 with ⟨_, _, h, _⟩ | ⟨h, _⟩
      · exact .inr (.inl (he ▸ h))
      · unfold Pending at *
        refine hp.imp (fun hp => ?_) (hC i hi he)
        rw [← he] at hp ⊢
        rwa [h, hself.job_eq]
    · exact hp.touched (hs.touched (Ne.symm he)) hself.job_eq hself.kMerge
  · by_cases he : u = w + 2 ^ i
    · obtain ⟨h', hout⟩ := hs.output hl.jobs.toHistoryOk (hst.stamp u)
      rcases hout with ⟨_, _, h, _⟩ | ⟨h, _⟩
      · exact .inr (.inl (he ▸ h))
      · unfold Loaded at *
        refine hL.imp (fun hL => ?_) (hC i hi he)
        rw [← he] at hL ⊢
        rwa [h, h']
    · exact hL.touched (hs.touched (Ne.symm he)) hself.kMerge

/-! ### The worker's own steps -/

section

variable {s s' : Pool} {w k : ℕ}

theorem wakeOk_of_pc {pc : WorkerPc} (h : (s.workers w).pc = pc) (hw : pc ≠ .wait) (hm : ∀ k, pc ≠ .merge k)
    (hg : ∀ k, pc ≠ .merging k) : WakeOk s w where
  wait := fun _ hpc => absurd (h.symm.trans hpc) hw
  merge := fun k _ hpc => absurd (h.symm.trans hpc) (hm k)
  merging := fun k _ hpc => absurd (h.symm.trans hpc) (hg k)

theorem wakeOk_of_published (h : (s.workers w).published = true) : WakeOk s w where
  wait := fun hp => by rw [h] at hp; cases hp
  merge := fun _ hp => by rw [h] at hp; cases hp
  merging := fun _ hp => by rw [h] at hp; cases hp

theorem wakeOk_of_wait (h : (s.workers w).pc = .wait) (hw : (s.workers w).published = false → Waits s w) :
    WakeOk s w where
  wait := fun hp _ => hw hp
  merge := fun k _ hpc => by rw [h] at hpc; cases hpc
  merging := fun k _ hpc => by rw [h] at hpc; cases hpc

theorem wakeOk_of_merge (h : (s.workers w).pc = .merge k) (hb : (s.workers w).published = false → PendingBelow s w k) :
    WakeOk s w where
  wait := fun _ hpc => by rw [h] at hpc; cases hpc
  merge := fun k' hp hpc => by
    cases h.symm.trans hpc
    exact hb hp
  merging := fun k _ hpc => by rw [h] at hpc; cases hpc

theorem wakeOk_of_merging (h : (s.workers w).pc = .merging k) (hb : (s.workers w).published = false →
    PendingBelow s w k ∧ k < (s.workers w).mergeState.size ∧ (s.workers w).mergeState.contains k = false ∧
      Loaded s w k) : WakeOk s w where
  wait := fun _ hpc => by rw [h] at hpc; cases hpc
  merge := fun k _ hpc => by rw [h] at hpc; cases hpc
  merging := fun k' hp hpc => by
    cases h.symm.trans hpc
    exact hb hp

theorem wakeOk_enterMerge {W : Worker} (h : s'.workers w = W.enterMerge) : WakeOk s' w := by
  by_cases hd : W.mergeState.done = true
  · have hpc : (s'.workers w).pc = .publish := by
      rw [h]
      exact if_pos hd
    exact wakeOk_of_pc hpc nofun nofun nofun
  · have hpc : (s'.workers w).pc = .merge 0 := by
      rw [h]
      exact if_neg hd
    exact wakeOk_of_merge hpc (fun _ i hi => absurd hi (Nat.not_lt_zero i))

theorem wakeOk_startMatch {W : Worker} (h : s'.workers w = W.startMatch) : WakeOk s' w := by
  have hpc : (s'.workers w).pc = .publish ∨ (s'.workers w).pc = .take := by
    rw [h]
    unfold Worker.startMatch
    simp only
    split
    · exact .inl rfl
    · split
      · exact .inl rfl
      · exact .inr rfl
  rcases hpc with hpc | hpc
  · exact wakeOk_of_pc hpc nofun nofun nofun
  · exact wakeOk_of_pc hpc nofun nofun nofun

/-- A step of `w` that keeps its job and its events. -/
structure Moves (s s' : Pool) (w : ℕ) (W : Worker) : Prop where
  self : s'.workers w = W
  other : ∀ u ≠ w, Touched (s.workers u) (s'.workers u)
  job : W.job = (s.workers w).job
  mEvents : W.mEvents = (s.workers w).mEvents

theorem Moves.child {W : Worker} (h : Moves s s' w W) (i : ℕ) :
    Touched (s.workers (w + 2 ^ i)) (s'.workers (w + 2 ^ i)) := by
  have hpos := Nat.two_pow_pos i
  exact h.other _ (by omega)

theorem Moves.pending {W : Worker} (h : Moves s s' w W) {i : ℕ} (hp : Pending s w i) : Pending s' w i :=
  hp.touched (h.child i) (by rw [h.self, h.job]) (by rw [h.self, h.mEvents]; exact id)

theorem Moves.pendingBelow {W : Worker} (h : Moves s s' w W) (hm : W.mergeState = (s.workers w).mergeState)
    (hb : PendingBelow s w k) : PendingBelow s' w k := by
  intro i hik hi hc
  rw [h.self, hm] at hi hc
  exact h.pending (hb i hik hi hc)

/-- One more child looked at. -/
theorem PendingBelow.succ (hb : PendingBelow s w k)
    (hk : (s.workers w).mergeState.contains k = false → Pending s w k) : PendingBelow s w (k + 1) := by
  intro i hik hi hc
  rcases Nat.lt_succ_iff_lt_or_eq.1 hik with hlt | rfl
  · exact hb i hlt hi hc
  · exact hk hc

theorem moves_setWorker {W : Worker} (hj : W.job = (s.workers w).job) (he : W.mEvents = (s.workers w).mEvents) :
    Moves s (s.setWorker w W) w W :=
  ⟨setWorker_self .., fun _ hu => .of_eq (setWorker_other hu _), hj, he⟩

/-- All children looked at: if they are not all merged, one of them is pending. -/
theorem wakeOk_mergeEnd {n : ℕ} (hwf : (s.workers w).mergeState.WellFormed w n) (h : WakeOk s w)
    (hpc : (s.workers w).pc = .merge k) (hk : (s.workers w).mergeState.size ≤ k) : WakeOk (s.setWorker w
      ((s.workers w).goto (if (s.workers w).mergeState.done then .publish else .wait))) w := by
  by_cases hd : (s.workers w).mergeState.done = true
  · rw [if_pos hd]
    exact wakeOk_of_pc (congrArg Worker.pc (setWorker_self ..)) nofun nofun nofun
  · rw [if_neg hd]
    have hmv : Moves s _ w ((s.workers w).goto .wait) := moves_setWorker rfl rfl
    refine wakeOk_of_wait (congrArg Worker.pc hmv.self) (fun hp => ?_)
    rw [hmv.self] at hp
    rw [hwf.done_iff] at hd
    push Not at hd
    obtain ⟨j, hj, hc⟩ := hd
    have hc : (s.workers w).mergeState.contains j = false := Bool.eq_false_iff.2 hc
    have hpend := hmv.pending (h.merge k hp hpc j (hj.trans_le hk) hj hc)
    unfold Waits
    rw [hmv.self]
    exact .inr ⟨j, hj, hc, hpend⟩

theorem wakeOk_load {n : ℕ} (hwf : (s.workers w).mergeState.WellFormed w n) (h : WakeOk s w)
    (hpc : (s.workers w).pc = .merge k) (hk : k < (s.workers w).mergeState.size)
    (hc : (s.workers w).mergeState.contains k = false) (hs : s' = (s.setWorker ((s.workers w).mergeState.child k)
      { s.workers ((s.workers w).mergeState.child k) with
        mOutput := (s.workers ((s.workers w).mergeState.child k)).mOutput.load }).setWorker w
      ((s.workers w).goto (.merging k))) : WakeOk s' w := by
  rw [hwf.child_eq] at hs
  have hpos := Nat.two_pow_pos k
  have hmv : Moves s s' w ((s.workers w).goto (.merging k)) := by
    rw [hs]
    refine ⟨setWorker_self .., fun u hu => ?_, rfl, rfl⟩
    rw [setWorker_other hu]
    exact touched_setWorker .loaded u
  refine wakeOk_of_merging (congrArg Worker.pc hmv.self) (fun hp => ?_)
  rw [hmv.self] at hp
  refine ⟨hmv.pendingBelow rfl (h.merge k hp hpc), ?_, ?_, .inl ?_⟩
  · rw [hmv.self]
    exact hk
  · rw [hmv.self]
    exact hc
  · rw [hs, setWorker_other (by omega), setWorker_self]
    rfl

theorem wakeOk_mergeChild (hst : Stamps s) (h : WakeOk s w) (hpc : (s.workers w).pc = .merging k) : WakeOk (s.setWorker w
    (Pool.mergeChild (s.workers w) k (s.workers ((s.workers w).mergeState.child k)).mOutput.readBuffer)) w := by
  have hwf := hst.merge w
  have hstamp := hst.stamp w
  have hread := (hst.stamp (w + 2 ^ k)).readLe
  rw [hwf.child_eq]
  rcases mergeChild_cases (s.workers w) k (s.workers (w + 2 ^ k)).mOutput.readBuffer with
    ⟨ht, he⟩ | ⟨ht, he⟩ | ⟨ht, he⟩
  · -- The child has newer results than these: it is pending.
    rw [he]
    have hmv : Moves s _ w ((s.workers w).goto .wait) := moves_setWorker rfl rfl
    refine wakeOk_of_wait (congrArg Worker.pc hmv.self) (fun hp => ?_)
    rw [hmv.self] at hp
    obtain ⟨_, hk, hc, _⟩ := h.merging k hp hpc
    have hpend : Pending s w k := by
      refine .inl (fun heq => ht ?_)
      rw [(hstamp.out hp).tick, ← heq]
      exact hread
    unfold Waits
    rw [hmv.self]
    exact .inr ⟨k, hk, hc, hmv.pending hpend⟩
  · rw [he]
    have hmv : Moves s _ w ((s.workers w).goto (.merge (k + 1))) := moves_setWorker rfl rfl
    refine wakeOk_of_merge (congrArg Worker.pc hmv.self) (fun hp => ?_)
    rw [hmv.self] at hp
    obtain ⟨hb, _, _, hL⟩ := h.merging k hp hpc
    refine hmv.pendingBelow rfl (hb.succ (fun _ => hL.imp (fun hL heq => ht ?_) id))
    rw [(hstamp.out hp).tick, ← heq]
    exact hL
  · rw [he]
    generalize (if !(s.workers (w + 2 ^ k)).mOutput.readBuffer.mItems.isEmpty then
      merge2 (s.workers w).out.mItems (s.workers (w + 2 ^ k)).mOutput.readBuffer.mItems
      else (s.workers w).out.mItems) = items
    have hmv : Moves s _ w { (s.workers w).setItems items with
      mergeState := (s.workers w).mergeState.set k, pc := .merge (k + 1) } := moves_setWorker rfl rfl
    refine wakeOk_of_merge (congrArg Worker.pc hmv.self) (fun hp => ?_)
    rw [hmv.self] at hp
    obtain ⟨hb, _, _, _⟩ := h.merging k hp hpc
    intro j hj hjs hjc
    rw [hmv.self] at hjs hjc
    have hj6 := hwf.size_le
    change j < (s.workers w).mergeState.size at hjs
    change ((s.workers w).mergeState.set k).contains j = false at hjc
    rw [MergeState.contains_set (by omega), Bool.or_eq_false_iff, decide_eq_false_iff_not] at hjc
    exact hmv.pending (hb j (by omega) hjs hjc.1)

theorem wakeOk_react {m : Main} (hm : HistoryOk m) (hst : StampOk m (s.workers w)) {ev : EventSet}
    {goOn : Worker → Worker} (hgo : WakeOk (s.setWorker w (goOn (s.workers w))) w) :
    WakeOk (s.setWorker w ((s.workers w).react m.mJob ev goOn)) w := by
  rcases react_cases hm hst ev goOn with ⟨_, he⟩ | ⟨_, he⟩ | ⟨_, he⟩
  · rw [he]
    exact wakeOk_of_pc (congrArg Worker.pc (setWorker_self ..)) nofun nofun nofun
  · rw [he]
    exact hgo
  · rw [he]
    exact wakeOk_startMatch (setWorker_self ..)

theorem Own.wakeOk {b : Build} {back : Results} {W : Worker} (hl : Live s) (hst : Stamps s) (h : WakeOk s w)
    (ho : Own b s back (s.workers w) W) : WakeOk (s.setWorker w W) w := by
  have hm := hl.jobs.toHistoryOk
  have hstamp := hst.stamp w
  cases ho with
  | wake _ => exact wakeOk_of_pc (congrArg Worker.pc (setWorker_self ..)) nofun nofun nofun
  | woken _ => exact wakeOk_react hm hstamp (wakeOk_enterMerge (setWorker_self ..))
  | chunk _ _ _ => exact wakeOk_of_pc (congrArg Worker.pc (setWorker_self ..)) nofun nofun nofun
  | get _ => exact wakeOk_of_pc (congrArg Worker.pc (setWorker_self ..)) nofun nofun nofun
  | got _ =>
    exact wakeOk_react hm hstamp (wakeOk_of_pc (congrArg Worker.pc (setWorker_self ..)) nofun nofun nofun)
  | @skip i hpc _ hc =>
    have hmv : Moves s _ w ((s.workers w).goto (.merge (i + 1))) := moves_setWorker rfl rfl
    refine wakeOk_of_merge (congrArg Worker.pc hmv.self) (fun hp => ?_)
    rw [hmv.self] at hp
    refine hmv.pendingBelow rfl ((h.merge i hp hpc).succ (fun hc' => ?_))
    cases hc.symm.trans hc'
  | mergeEnd hpc hi => exact wakeOk_mergeEnd (hst.merge w) h hpc hi
  | merging hpc => exact wakeOk_mergeChild hst h hpc
  | already _ hp =>
    apply wakeOk_of_published
    rw [setWorker_self]
    exact hp
  | publish _ _ =>
    apply wakeOk_of_published
    rw [setWorker_self]

theorem WorkerStep.wakeOk {b : Build} {back : Results} (hl : Live s) (hst : Stamps s) (h : WakeOk s w)
    (hs : WorkerStep b s w back s') : WakeOk s' w := by
  cases hs with
  | own ho => exact ho.wakeOk hl hst h
  | takeChunk _ _ _ => exact wakeOk_of_pc (congrArg Worker.pc (setWorker_self ..)) nofun nofun nofun
  | takeEnd _ _ _ => exact wakeOk_enterMerge (setWorker_self ..)
  | load hpc hi hc => exact wakeOk_load (hst.merge w) h hpc hi hc rfl
  | notifyMain hpc _ =>
    apply wakeOk_of_published
    rw [setWorker_self]
    exact (hst.stamp w).notify hpc
  | notifyParent hpc _ hp =>
    apply wakeOk_of_published
    rw [setWorker_other hp, setWorker_self]
    exact (hst.stamp w).notify hpc

end

/-! ## Runs -/

theorem LiveStep.wakeInv {b : Build} {s s' : Pool} (hl : Live s) (h : WakeInv s) (hs : LiveStep b s s') :
    WakeInv s' := by
  have hn : s'.main.mWorkersSize = s.main.mWorkersSize := by
    rcases hs.touched_or_worker with ⟨_, _, hn⟩ | ⟨w, back, _, hw⟩
    · exact hn
    · rw [hw.main]
  refine ⟨hs.stamps hl h.stamps, fun w hw => ?_, fun w hw => ?_⟩
  · rw [hn] at hw
    exact hs.aware hl h.stamps.stamp hw (h.aware w hw)
  · rw [hn] at hw
    rcases hs.touched_or_worker with ⟨ht, _, _⟩ | ⟨u, back, _, hu⟩
    · exact (stays_of_touched ht).wakeOk (h.wake w hw)
    · by_cases he : w = u
      · exact he ▸ hu.wakeOk hl h.stamps (h.wake u (he ▸ hw))
      · exact (hu.stays hl h.stamps hw he).wakeOk (h.wake w hw)

theorem Prepared.wakeInv {s : Pool} (h : Prepared s) : WakeInv s.start := by
  refine ⟨h.stamps, fun w _ => .inl ?_, fun w _ => wakeOk_of_wait ?_ (fun _ => .inl ?_)⟩
  · rw [(start_keeps s).mJob, h.mJob_eq, h.start_eq]
    rfl
  · rw [h.start_eq]
    rfl
  · rw [h.start_eq]
    rfl

/-! ## At rest -/

/-- Every worker sleeps and no event is pending. -/
def AtRest (s : Pool) : Prop :=
  s.main.pc = .idle ∧ ∀ w < s.main.mWorkersSize, (s.workers w).pc = .wait ∧ (s.workers w).mEvents.any = false

theorem AtRest.job_eq {s : Pool} (hr : AtRest s) (h : WakeInv s) {w : ℕ} (hw : w < s.main.mWorkersSize) :
    (s.workers w).job = s.main.mJob := by
  obtain ⟨hpc, hev⟩ := hr.2 w hw
  simp only [EventSet.any, Bool.or_eq_false_iff] at hev
  rcases h.aware w hw with h | h | ⟨k, _, h⟩ | h
  · exact h
  · rw [hev.1.2] at h
    cases h
  · rw [hr.1] at h
    cases h
  · rw [hpc] at h
    cases h

/-- From the leaves up: a worker's children come after it. -/
theorem AtRest.published {s : Pool} (hr : AtRest s) (h : WakeInv s) (ht : s.main.mJob.tick ≠ 0) :
    ∀ (d w : ℕ), w < s.main.mWorkersSize → s.main.mWorkersSize ≤ w + d → (s.workers w).published = true
  | 0, w, hw, hd => by omega
  | d + 1, w, hw, hd => by
    by_contra hp
    have hp : (s.workers w).published = false := Bool.eq_false_iff.2 hp
    obtain ⟨hpc, hev⟩ := hr.2 w hw
    simp only [EventSet.any, Bool.or_eq_false_iff] at hev
    have hwf := h.stamps.merge w
    rcases (h.wake w hw).wait hp hpc with h0 | ⟨i, hi, hc, hpend⟩
    · rw [hr.job_eq h hw] at h0
      exact ht h0
    · have hlt := hwf.child_lt hi
      rw [hwf.child_eq] at hlt
      have hpos := Nat.two_pow_pos i
      have hpub := hr.published h ht d (w + 2 ^ i) hlt (by omega)
      rcases hpend with hne | hn | hk
      · rw [((h.stamps.stamp (w + 2 ^ i)).committed hpub).tick, hr.job_eq h hlt, hr.job_eq h hw] at hne
        exact hne rfl
      · rw [(hr.2 _ hlt).1] at hn
        cases hn
      · rw [hev.2] at hk
        cases hk

/-- **No update is lost.** -/
theorem no_update_lost (b : Build) (hardwareConcurrency : ℕ) (pre post : List Pool.Action) (s : Pool)
    (hpre : ∀ a ∈ pre, a.Prepares) (hpost : ∀ a ∈ post, a.NoStop)
    (hrun : run (Pool.step b) (Pool.init hardwareConcurrency) (pre ++ .call .start :: post) = some s) (hrest : AtRest s) :
    s.main.jobs = [] ∨
      ((s.workers 0).mOutput.committed.mItemsTick = s.main.mJob.mItems.length ∧
        (s.workers 0).mOutput.committed.mQueryTick = s.main.mJob.mQueryTick ∧
        (s.workers 0).mOutput.committed.mQuery = s.main.mJob.mQuery) := by
  obtain ⟨hl, h⟩ := live_run WakeInv (fun _ hp => hp.wakeInv) (fun _ _ hl h hs => hs.wakeInv hl h) hpre hpost hrun
  by_cases hj : s.main.jobs = []
  · exact .inl hj
  · have hlt := hl.jobs.tick_pos hj
    have hpub := hrest.published h hlt.ne' s.main.mWorkersSize 0 hl.pos (Nat.le_add_left _ _)
    have hs := (h.stamps.stamp 0).committed hpub
    rw [hrest.job_eq h hl.pos] at hs
    exact .inr ⟨congrArg Prod.fst hs.tick, congrArg Prod.snd hs.tick, hs.query⟩

/-! ### A run -/

/-- Two workers, the items `a` and `b` and the query `'a`: worker 0 takes the chunk and waits for worker 1, which finds
nothing and publishes that. -/
def samplePost : List Pool.Action :=
  .call (.setQuery [39, 97]) :: List.replicate 3 .main ++ List.replicate 10 (.worker 0 {}) ++
    List.replicate 5 (.worker 1 {}) ++ List.replicate 7 (.worker 0 {})

def samplePre : List Pool.Action := [.call (.pushItem [97]), .call (.pushItem [98])]

theorem sample_isSome :
    (run (Pool.step .scalar) (Pool.init 2) (samplePre ++ .call .start :: samplePost)).isSome = true := by decide +kernel

def sample : Pool := (run (Pool.step .scalar) (Pool.init 2) (samplePre ++ .call .start :: samplePost)).get sample_isSome

theorem sample_run :
    run (Pool.step .scalar) (Pool.init 2) (samplePre ++ .call .start :: samplePost) = some sample :=
  (Option.some_get sample_isSome).symm

theorem samplePre_prepares : ∀ a ∈ samplePre, a.Prepares := by
  intro a ha
  simp only [samplePre, List.mem_cons, List.not_mem_nil, or_false] at ha
  rcases ha with rfl | rfl <;> trivial

theorem samplePost_noStop : ∀ a ∈ samplePost, a.NoStop := by
  intro a ha
  simp only [samplePost, List.mem_cons, List.mem_append, List.mem_replicate] at ha
  rcases ha with (((rfl | ⟨_, rfl⟩) | ⟨_, rfl⟩) | ⟨_, rfl⟩) | ⟨_, rfl⟩ <;> trivial

theorem sample_atRest : AtRest sample := by
  unfold AtRest
  decide +kernel

theorem no_update_lost_sample : sample.main.jobs = [] ∨
    ((sample.workers 0).mOutput.committed.mItemsTick = sample.main.mJob.mItems.length ∧
      (sample.workers 0).mOutput.committed.mQueryTick = sample.main.mJob.mQueryTick ∧
      (sample.workers 0).mOutput.committed.mQuery = sample.main.mJob.mQuery) :=
  no_update_lost .scalar 2 samplePre samplePost sample samplePre_prepares samplePost_noStop sample_run sample_atRest

end Fzx
