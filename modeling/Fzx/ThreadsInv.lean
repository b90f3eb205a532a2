import Fzx.Threads
import Fzx.PoolWork
/-!
# ThreadsInv — who is in which call

What holds of every state of the threads (`ThreadsOk`): each event word and each triple buffer keeps its invariant; a
worker waits and commits only where its code does; and a load or a post is under way only where the one thread that may
do it is at that call.  The parts of a step that change one thing keep it (`setWorker`, `setEvents`, `setOutput`,
`setMain`), and a step is made of those.
-/
namespace Fzx

open Lib

namespace Threads

/-- The main thread loads the results of worker 0, or the worker that merges from `c` loads those of `c`. -/
def ReaderAt (s : Threads) (c : ℕ) : Prop :=
  (c = 0 ∧ s.main.pc = .idle ∧ 0 < s.main.mWorkersSize) ∨
    ∃ w i, (s.workers w).pc = .merge i ∧ i < (s.workers w).mergeState.size ∧ (s.workers w).mergeState.contains i = false ∧
      (s.workers w).mergeState.child i = c

/-- The main thread posts to worker `k`, or the worker `p` posts to its parent `k`. -/
def PosterAt (s : Threads) (k p : ℕ) : Prop :=
  (p = 0 ∧ k < s.main.mWorkersSize ∧ (s.main.pc = .posting k ∨ s.main.pc = .stopping k)) ∨
    (p ≠ 0 ∧ p < s.main.mWorkersSize ∧ k = parent p ∧ (s.workers p).pc = .notify)

end Threads

structure WorkerThread.Ok (w : ℕ) (T : WorkerThread) : Prop where
  tx : Tx.Inv {} T.mOutput
  events : Events.Inv T.mEvents
  known : Events.Known T.mEvents
  owned : Events.Owned T.mEvents
  consumer : T.mEvents.consumer ≠ .idle → T.pc = .wait
  writer : T.mOutput.writer ≠ .idle → T.pc = .publish ∧ T.published = true
  index : T.mergeState.mIndex = w
  count : T.mergeState.mCount ≤ maxChildren w
  merging : ∀ i, T.pc = .merging i → i < T.mergeState.size

structure ThreadsOk (s : Threads) : Prop where
  worker : ∀ w, (s.workers w).Ok w
  reader : ∀ c, (s.workers c).mOutput.reader ≠ .idle → s.ReaderAt c
  poster : ∀ k p, (s.workers k).mEvents.posters p ≠ .idle → s.PosterAt k p
  joined : ∀ k, s.main.pc = .joining k → ∀ w < k, (s.workers w).pc = .stopped
  size : s.main.mWorkersSize ≤ 64
  threads : s.main.mThreads ≤ 64

theorem call_mWorkersSize (s : Pool) {c : Call} (hc : c ≠ .start) : (s.call c).main.mWorkersSize = s.main.mWorkersSize := by
  have hcommit : ∀ s : Pool, s.commit.main.mWorkersSize = s.main.mWorkersSize := by
    intro s
    grind [Pool.commit, Pool.renewQueue, Pool.setJob]
  cases c with
  | start => exact absurd rfl hc
  | setThreads threads => rfl
  | stop => grind [Pool.call, Pool.stop]
  | pushItem str => grind [Pool.call, Pool.pushItem]
  | setQuery query => grind [Pool.call, Pool.setQuery, Pool.withQuery]
  | commit => exact hcommit s
  | loadResults => grind [Pool.call, Pool.loadResults, Pool.setWorker]

theorem call_not_joining {s : Pool} (hpc : s.main.pc = .idle) (c : Call) (k : ℕ) : (s.call c).main.pc ≠ .joining k := by
  have hcommit : ∀ s : Pool, s.main.pc = .idle → s.commit.main.pc ≠ .joining k := by
    intro s
    grind [Pool.commit, Pool.renewQueue, Pool.setJob]
  cases c with
  | setThreads threads => grind [Pool.call, Pool.setThreads]
  | start => grind [Pool.call, Pool.start]
  | stop => grind [Pool.call, Pool.stop]
  | pushItem str => grind [Pool.call, Pool.pushItem]
  | setQuery query => grind [Pool.call, Pool.setQuery, Pool.withQuery]
  | commit => exact hcommit s hpc
  | loadResults => grind [Pool.call, Pool.loadResults, Pool.setWorker]

/-! ## The tree -/

theorem parent_ne {w : ℕ} (hw : w ≠ 0) : parent w ≠ w := by
  by_cases h : w < 64
  · exact (parent_lt w h hw).ne
  · have he : parent w = 0 := List.getD_eq_default _ _ (by simpa [kParentMap] using Nat.le_of_not_lt h)
    rw [he]
    exact hw.symm

section

variable {w i : ℕ} {T : WorkerThread}

theorem WorkerThread.Ok.child_eq (h : T.Ok w) (i : ℕ) : T.mergeState.child i = w + 2 ^ i := by
  unfold MergeState.child
  rw [h.index]

theorem WorkerThread.Ok.child_ne (h : T.Ok w) (i : ℕ) : T.mergeState.child i ≠ w := by
  rw [h.child_eq]
  have := Nat.two_pow_pos i
  omega

theorem WorkerThread.Ok.child_ne_zero (h : T.Ok w) (i : ℕ) : T.mergeState.child i ≠ 0 := by
  rw [h.child_eq]
  have := Nat.two_pow_pos i
  omega

theorem WorkerThread.Ok.parent_child (h : T.Ok w) (hi : i < T.mergeState.size) : parent (T.mergeState.child i) = w := by
  have hlt : i < maxChildren w := lt_of_lt_of_le hi h.count
  have hw : w < 64 := by
    by_contra hw
    have he : maxChildren w = 0 := List.getD_eq_default _ _ (by simpa [kMaxChildrenMap] using Nat.le_of_not_lt hw)
    omega
  rw [h.child_eq]
  exact (child_spec w hw i hlt).1

theorem WorkerThread.Ok.child_lt (h : T.Ok w) (hw : w < 64) (hi : i < T.mergeState.size) : T.mergeState.child i < 64 := by
  have hlt : ∀ w < 64, ∀ i < maxChildren w, w + 2 ^ i < 64 := by decide
  rw [h.child_eq]
  exact hlt w hw i (lt_of_lt_of_le hi h.count)

end

/-! ## The parts of a step -/

namespace Threads

variable {s s' : Threads}

theorem worker_self (s : Threads) (w : ℕ) (T : WorkerThread) : (s.setWorker w T).workers w = T := Function.update_self ..

theorem worker_other {w u : ℕ} (h : u ≠ w) (T : WorkerThread) : (s.setWorker w T).workers u = s.workers u :=
  Function.update_of_ne h ..

/-- The callers are where they were. -/
theorem PosterAt.congr {k p : ℕ} (h : s.PosterAt k p) (hm : s'.main = s.main)
    (hpc : p ≠ 0 → k = parent p → (s.workers p).pc = .notify → (s'.workers p).pc = .notify) : s'.PosterAt k p := by
  unfold PosterAt
  rw [hm]
  exact h.imp_right (fun ⟨hp, hlt, hk, hn⟩ => ⟨hp, hlt, hk, hpc hp hk hn⟩)

theorem ReaderAt.congr {c : ℕ} (h : s.ReaderAt c) (hm : s'.main = s.main)
    (hpc : ∀ w i, (s.workers w).pc = .merge i → i < (s.workers w).mergeState.size →
      (s.workers w).mergeState.contains i = false → (s.workers w).mergeState.child i = c →
      (s'.workers w).pc = .merge i ∧ (s'.workers w).mergeState = (s.workers w).mergeState) : s'.ReaderAt c := by
  unfold ReaderAt
  rw [hm]
  refine h.imp_right (fun ⟨w, i, hw, hi, hc, hch⟩ => ?_)
  obtain ⟨hw', hms⟩ := hpc w i hw hi hc hch
  exact ⟨w, i, hw', hms ▸ hi, hms ▸ hc, hms ▸ hch⟩

end Threads

namespace ThreadsOk

open Threads

variable {s : Threads}

theorem withQueues (h : ThreadsOk s) (queues : ℕ → ItemQueue) : ThreadsOk { s with queues := queues } :=
  ⟨h.worker, h.reader, h.poster, h.joined, h.size, h.threads⟩

/-- **A worker goes on**: it leaves no load and no post of its own behind. -/
theorem setWorker (h : ThreadsOk s) {w : ℕ} {T : WorkerThread} (hT : T.Ok w)
    (hread : T.mOutput.reader = (s.workers w).mOutput.reader)
    (hpost : T.mEvents.posters = (s.workers w).mEvents.posters)
    (hmerge : ∀ i, (s.workers w).pc = .merge i → i < (s.workers w).mergeState.size →
      (s.workers w).mergeState.contains i = false →
      (s.workers ((s.workers w).mergeState.child i)).mOutput.reader = .idle ∨
        (T.pc = .merge i ∧ T.mergeState = (s.workers w).mergeState))
    (hnotify : w ≠ 0 → (s.workers w).pc = .notify →
      (s.workers (parent w)).mEvents.posters w = .idle ∨ T.pc = .notify)
    (hstop : (s.workers w).pc ≠ .stopped) : ThreadsOk (s.setWorker w T) := by
  have hreader : ∀ c, ((s.setWorker w T).workers c).mOutput.reader = (s.workers c).mOutput.reader := by
    intro c
    by_cases hc : c = w
    · rw [hc, worker_self, hread]
    · rw [worker_other hc]
  have hposter : ∀ k, ((s.setWorker w T).workers k).mEvents.posters = (s.workers k).mEvents.posters := by
    intro k
    by_cases hk : k = w
    · rw [hk, worker_self, hpost]
    · rw [worker_other hk]
  refine ⟨fun u => ?_, fun c hc => ?_, fun k p hp => ?_, fun k hk u hu => ?_, h.size, h.threads⟩
  · by_cases hu : u = w
    · rw [hu, worker_self]
      exact hT
    · rw [worker_other hu]
      exact h.worker u
  · rw [hreader] at hc
    refine (h.reader c hc).congr rfl (fun u i hpc hi hcon hch => ?_)
    by_cases hu : u = w
    · subst hu
      rw [worker_self]
      exact (hmerge i hpc hi hcon).resolve_left (hch ▸ hc)
    · rw [worker_other hu]
      exact ⟨hpc, rfl⟩
  · rw [hposter] at hp
    refine (h.poster k p hp).congr rfl (fun h0 hk hpc => ?_)
    by_cases hu : p = w
    · subst hu
      rw [worker_self]
      exact (hnotify h0 hpc).resolve_left (hk ▸ hp)
    · rw [worker_other hu]
      exact hpc
  · have hstopped := h.joined k hk u hu
    have hne : u ≠ w := fun he => hstop (he ▸ hstopped)
    rw [worker_other hne]
    exact hstopped

/-- The callers stay where they are. -/
theorem setShared (h : ThreadsOk s) {w : ℕ} {T : WorkerThread} (hT : T.Ok w) (hpc : T.pc = (s.workers w).pc)
    (hms : T.mergeState = (s.workers w).mergeState) (hread : T.mOutput.reader ≠ .idle → s.ReaderAt w)
    (hpost : ∀ p, T.mEvents.posters p ≠ .idle → s.PosterAt w p) : ThreadsOk (s.setWorker w T) := by
  have hR : ∀ c, s.ReaderAt c → (s.setWorker w T).ReaderAt c := by
    refine fun c hc => hc.congr rfl (fun u i hu _ _ _ => ?_)
    by_cases he : u = w
    · rw [he, worker_self, hpc, hms, ← he]
      exact ⟨hu, rfl⟩
    · rw [worker_other he]
      exact ⟨hu, rfl⟩
  have hP : ∀ k p, s.PosterAt k p → (s.setWorker w T).PosterAt k p := by
    refine fun k p hk => hk.congr rfl (fun _ _ hn => ?_)
    by_cases he : p = w
    · rw [he, worker_self, hpc, ← he]
      exact hn
    · rw [worker_other he]
      exact hn
  refine ⟨fun u => ?_, fun c hc => hR c ?_, fun k p hp => hP k p ?_, fun k hk u hu => ?_, h.size, h.threads⟩
  · by_cases hu : u = w
    · rw [hu, worker_self]
      exact hT
    · rw [worker_other hu]
      exact h.worker u
  · by_cases he : c = w
    · rw [he, worker_self] at hc
      exact he ▸ hread hc
    · rw [worker_other he] at hc
      exact h.reader c hc
  · by_cases he : k = w
    · rw [he, worker_self] at hp
      exact he ▸ hpost p hp
    · rw [worker_other he] at hp
      exact h.poster k p hp
  · have hstopped := h.joined k hk u hu
    by_cases he : u = w
    · rw [he, worker_self, hpc, ← he]
      exact hstopped
    · rw [worker_other he]
      exact hstopped

/-- **The main thread goes on**. -/
theorem setMain (h : ThreadsOk s) {m : Main}
    (hread : (s.workers 0).mOutput.reader ≠ .idle → m.pc = .idle ∧ 0 < m.mWorkersSize)
    (hpost : ∀ k, (s.workers k).mEvents.posters 0 ≠ .idle → k < m.mWorkersSize ∧ (m.pc = .posting k ∨ m.pc = .stopping k))
    (hnotify : ∀ p < s.main.mWorkersSize, (s.workers p).pc = .notify → p < m.mWorkersSize)
    (hjoined : ∀ k, m.pc = .joining k → ∀ w < k, (s.workers w).pc = .stopped)
    (hsize : m.mWorkersSize ≤ 64) (hthreads : m.mThreads ≤ 64) : ThreadsOk { s with main := m } := by
  refine ⟨h.worker, fun c hc => ?_, fun k p hp => ?_, hjoined, hsize, hthreads⟩
  · rcases h.reader c hc with ⟨rfl, _⟩ | hw
    · exact .inl ⟨rfl, hread hc⟩
    · exact .inr hw
  · rcases h.poster k p hp with ⟨rfl, _⟩ | hw
    · exact .inl ⟨rfl, hpost k hp⟩
    · exact .inr ⟨hw.1, hnotify p hw.2.1 hw.2.2.2, hw.2.2⟩

end ThreadsOk

/-! ## The steps of a worker -/

/-- The next step of the thread is its own work. -/
structure WorkerThread.OnOwn (w : ℕ) (T : WorkerThread) : Prop where
  wait : T.pc ≠ .wait
  get : T.pc ≠ .get
  merge : ∀ i, T.pc = .merge i → i < T.mergeState.size → T.mergeState.contains i = true
  publish : T.pc = .publish → T.published = true ∧ T.mOutput.writer = .idle
  notify : T.pc = .notify → w = 0

inductive WorkerMove (b : Build) (s : Threads) (w : ℕ) : Threads → Prop where
  | own (h : (s.workers w).OnOwn w) {P : Pool} (hP : s.own.workerStep b w {} = some P) :
      WorkerMove b s w ({ s with queues := P.queues }.setWorker w ((s.workers w).put (P.workers w)))
  | wait (hpc : (s.workers w).pc = .wait) {T : WorkerThread} (hT : (s.workers w).waitStep = some T) :
      WorkerMove b s w (s.setWorker w T)
  | get (hpc : (s.workers w).pc = .get) {T : WorkerThread} (hT : (s.workers w).getStep = some T) :
      WorkerMove b s w (s.setWorker w T)
  | load {i : ℕ} (hpc : (s.workers w).pc = .merge i) (hi : i < (s.workers w).mergeState.size)
      (hc : (s.workers w).mergeState.contains i = false) :
      WorkerMove b s w (s.loadStep ((s.workers w).mergeState.child i) (fun s => s.goto w (.merging i)))
  | commit (hpc : (s.workers w).pc = .publish)
      (hno : ¬ ((s.workers w).published = true ∧ (s.workers w).mOutput.writer = .idle)) :
      WorkerMove b s w (s.setWorker w (s.workers w).commitStep)
  | post (hpc : (s.workers w).pc = .notify) (hw : w ≠ 0) {s' : Threads}
      (hs : s.postStep (parent w) w Worker.kMerge (fun s => s.goto w .wait) = some s') : WorkerMove b s w s'

/-- What a worker's next step is, by where it is. -/
theorem workerStep_eq (b : Build) (s : Threads) (w : ℕ) :
    ((s.workers w).pc = .wait ∧ s.workerStep b w = (s.workers w).waitStep.map (s.setWorker w)) ∨
      ((s.workers w).pc = .get ∧ s.workerStep b w = (s.workers w).getStep.map (s.setWorker w)) ∨
      (∃ i, (s.workers w).pc = .merge i ∧ i < (s.workers w).mergeState.size ∧ (s.workers w).mergeState.contains i = false ∧
        s.workerStep b w = some (s.loadStep ((s.workers w).mergeState.child i) (fun s => s.goto w (.merging i)))) ∨
      ((s.workers w).pc = .publish ∧ ¬ ((s.workers w).published = true ∧ (s.workers w).mOutput.writer = .idle) ∧
        s.workerStep b w = some (s.setWorker w (s.workers w).commitStep)) ∨
      ((s.workers w).pc = .notify ∧ w ≠ 0 ∧
        s.workerStep b w = s.postStep (parent w) w Worker.kMerge (fun s => s.goto w .wait)) ∨
      ((s.workers w).OnOwn w ∧ s.workerStep b w = s.ownStep b w) := by
  unfold Threads.workerStep
  dsimp only
  cases hpc : (s.workers w).pc with
  | wait => exact .inl ⟨rfl, rfl⟩
  | get => exact .inr (.inl ⟨rfl, rfl⟩)
  | merge i =>
    by_cases hc : i < (s.workers w).mergeState.size ∧ (s.workers w).mergeState.contains i = false
    · exact .inr (.inr (.inl ⟨i, rfl, hc.1, hc.2, if_pos hc⟩))
    · refine .inr (.inr (.inr (.inr (.inr ⟨⟨?_, ?_, ?_, ?_, ?_⟩, if_neg hc⟩)))) <;> rw [hpc]
      case refine_3 =>
        rintro _ ⟨⟩ hlt
        exact Bool.eq_true_of_not_eq_false (fun he => hc ⟨hlt, he⟩)
      all_goals nofun
  | publish =>
    by_cases hc : (s.workers w).published = true ∧ (s.workers w).mOutput.writer = .idle
    · refine .inr (.inr (.inr (.inr (.inr ⟨⟨?_, ?_, ?_, fun _ => hc, ?_⟩, if_pos hc⟩)))) <;> rw [hpc] <;> nofun
    · exact .inr (.inr (.inr (.inl ⟨rfl, hc, if_neg hc⟩)))
  | notify =>
    by_cases hw : w = 0
    · refine .inr (.inr (.inr (.inr (.inr ⟨⟨?_, ?_, ?_, ?_, fun _ => hw⟩, if_pos hw⟩)))) <;> rw [hpc] <;> nofun
    · exact .inr (.inr (.inr (.inr (.inl ⟨rfl, hw, if_neg hw⟩))))
  | _ => refine .inr (.inr (.inr (.inr (.inr ⟨⟨?_, ?_, ?_, ?_, ?_⟩, rfl⟩)))) <;> rw [hpc] <;> nofun

/-- **The steps of a worker thread.** -/
theorem workerMove_cases {b : Build} {s s' : Threads} {w : ℕ} (h : s.workerStep b w = some s') : WorkerMove b s w s' := by
  rcases workerStep_eq b s w with ⟨hpc, he⟩ | ⟨hpc, he⟩ | ⟨i, hpc, hi, hc, he⟩ | ⟨hpc, hno, he⟩ | ⟨hpc, hw, he⟩ | ⟨ho, he⟩ <;>
    rw [he] at h
  · obtain ⟨T, hT, rfl⟩ := Option.map_eq_some_iff.1 h
    exact .wait hpc hT
  · obtain ⟨T, hT, rfl⟩ := Option.map_eq_some_iff.1 h
    exact .get hpc hT
  · rw [← Option.some.inj h]
    exact .load hpc hi hc
  · rw [← Option.some.inj h]
    exact .commit hpc hno
  · exact .post hpc hw h
  · obtain ⟨P, hP, rfl⟩ := Option.map_eq_some_iff.1 h
    exact .own ho hP

/-- A step of `wait`, at the end of which the worker has the events. -/
theorem WorkerThread.Ok.waitStep {w : ℕ} {T T' : WorkerThread} (h : T.Ok w) (hs : T.waitStep = some T') :
    ∃ E, Events.Inv E ∧ Events.Owned E ∧ Events.WaitStep T.mEvents E ∧
      T' = { T with mEvents := E, pc := (T.mEvents.consumer.taken.map WorkerPc.woken).getD T.pc } := by
  unfold WorkerThread.waitStep at hs
  have hstep : ∀ {E}, Events.consumerStep T.mEvents = some E →
      Events.Inv E ∧ Events.Owned E ∧ Events.WaitStep T.mEvents E := fun hE =>
    ⟨Events.inv_consumerStep h.events hE, Events.owned_consumerStep h.owned hE, Events.consumerStep_cases h.events h.known hE⟩
  cases hc : T.mEvents.consumer with
  | idle =>
    simp only [hc] at hs
    cases hs
    refine ⟨_, Events.inv_wait h.events hc, h.owned.move (by rw [hc]; rfl),
      .go (Events.same_of_eq rfl rfl) (by rw [hc]; rfl) rfl nofun (by rw [hc]; exact Nat.lt_add_one 5), ?_⟩
    rfl
  | unlock ret =>
    simp only [hc] at hs
    obtain ⟨E, hE, rfl⟩ := Option.map_eq_some_iff.1 hs
    exact ⟨E, (hstep hE).1, (hstep hE).2.1, (hstep hE).2.2, rfl⟩
  | _ =>
    simp only [hc] at hs
    obtain ⟨E, hE, rfl⟩ := Option.map_eq_some_iff.1 hs
    exact ⟨E, (hstep hE).1, (hstep hE).2.1, (hstep hE).2.2, rfl⟩

/-- Only a load leads to `merging`. -/
theorem not_merging_startMatch (W : Worker) (i : ℕ) : W.startMatch.pc ≠ .merging i := by
  unfold Worker.startMatch
  dsimp only
  split
  · nofun
  · split <;> nofun

theorem not_merging_enterMerge (W : Worker) (i : ℕ) : W.enterMerge.pc ≠ .merging i := by
  unfold Worker.enterMerge Worker.goto
  split <;> nofun

theorem not_merging_react {W : Worker} {mJob : Job} {ev : EventSet} {goOn : Worker → Worker} {i : ℕ}
    (hgo : ∀ W, (goOn W).pc ≠ .merging i) : (W.react mJob ev goOn).pc ≠ .merging i := by
  unfold Worker.react
  split
  · nofun
  · split
    · change (if (W.loadJob mJob).2 then (W.loadJob mJob).1.startMatch else goOn (W.loadJob mJob).1).pc ≠ _
      split
      · exact not_merging_startMatch _ _
      · exact hgo _
    · exact hgo _

theorem WorkerStep.merging {b : Build} {s s' : Pool} {w i : ℕ} {back : Results} (h : WorkerStep b s w back s')
    (hpc : (s'.workers w).pc = .merging i) : (s.workers w).pc = .merge i ∧ i < (s.workers w).mergeState.size ∧
      (s.workers w).mergeState.contains i = false := by
  have hother : ∀ {u W}, (s.setWorker u W).workers u = W := setWorker_self _ _ _
  cases h with
  | own ho =>
    rw [setWorker_self] at hpc
    cases ho with
    | woken _ => exact absurd hpc (not_merging_react (fun W => not_merging_enterMerge W i))
    | got _ => exact absurd hpc (not_merging_react (fun W => nofun))
    | mergeEnd _ _ =>
      unfold Worker.goto at hpc
      split at hpc <;> cases hpc
    | @merging j _ =>
      rcases mergeChild_cases (s.workers w) j (s.workers ((s.workers w).mergeState.child j)).mOutput.readBuffer with
        ⟨_, he⟩ | ⟨_, he⟩ | ⟨_, he⟩ <;>
      · rw [he] at hpc
        cases hpc
    | _ => cases hpc
  | takeChunk _ _ _ =>
    rw [setWorker_self] at hpc
    cases hpc
  | takeEnd _ _ _ =>
    rw [setWorker_self] at hpc
    exact absurd hpc (not_merging_enterMerge _ i)
  | load hw hi hc =>
    rw [setWorker_self] at hpc
    cases hpc
    exact ⟨hw, hi, hc⟩
  | notifyMain _ _ =>
    rw [setWorker_self] at hpc
    cases hpc
  | notifyParent _ _ hp =>
    rw [setWorker_other hp, setWorker_self] at hpc
    cases hpc

/-- Where the thread is at its own work it is in no call. -/
theorem WorkerThread.Ok.idle {w : ℕ} {T : WorkerThread} (h : T.Ok w) (ho : T.OnOwn w) :
    T.mEvents.consumer = .idle ∧ T.mOutput.writer = .idle := by
  refine ⟨?_, ?_⟩
  · by_contra hne
    exact ho.wait (h.consumer hne)
  · by_contra hne
    exact hne (ho.publish (h.writer hne).1).2

theorem WorkerThread.Ok.put {w : ℕ} {T : WorkerThread} {W : Worker} (h : T.Ok w) (ho : T.OnOwn w)
    (hms : SameTree T.mergeState W.mergeState) (hpc : ∀ i, W.pc ≠ .merging i) : (T.put W).Ok w where
  tx := Tx.inv_write h.tx (h.idle ho).2 W.out
  events := h.events
  known := h.known
  owned := h.owned
  consumer := fun hne => absurd (h.idle ho).1 hne
  writer := fun hne => absurd (h.idle ho).2 hne
  index := hms.1.trans h.index
  count := hms.2.trans_le h.count
  merging := fun i hi => absurd hi (hpc i)

namespace ThreadsOk

open Threads

variable {s s' : Threads}

theorem own_sameTree {b : Build} {w : ℕ} {P : Pool} (hw : w < 64) (ho : (s.workers w).OnOwn w)
    (hP : s.own.workerStep b w {} = some P) : SameTree (s.workers w).mergeState (P.workers w).mergeState ∧
      ∀ i, (P.workers w).pc ≠ .merging i := by
  have hs := workerStep_cases hw hP
  refine ⟨hs.self.sameTree, fun i hi => ?_⟩
  obtain ⟨hpc, hlt, hc⟩ := hs.merging hi
  have ht := ho.merge i hpc hlt
  rw [show (s.workers w).mergeState.contains i = false from hc] at ht
  cases ht

theorem setWait {w : ℕ} {E : Events.Sys} (h : ThreadsOk s) (hpc : (s.workers w).pc = .wait) (hE : Events.Inv E)
    (ho : Events.Owned E) (hs : Events.WaitStep (s.workers w).mEvents E) : ThreadsOk (s.setWorker w { s.workers w with
      mEvents := E, pc := ((s.workers w).mEvents.consumer.taken.map WorkerPc.woken).getD (s.workers w).pc }) := by
  have hT := h.worker w
  have hpc' : ((s.workers w).mEvents.consumer.taken.map WorkerPc.woken).getD (s.workers w).pc = .wait ∨
      ∃ ev, ((s.workers w).mEvents.consumer.taken.map WorkerPc.woken).getD (s.workers w).pc = .woken ev := by
    cases (s.workers w).mEvents.consumer.taken with
    | none => exact .inl hpc
    | some ev => exact .inr ⟨ev, rfl⟩
  refine h.setWorker ⟨hT.tx, hE, hs.known hT.known, ho, fun hne => ?_, fun hne => ?_, hT.index, hT.count, fun i hi => ?_⟩ rfl
    hs.posters ?_ ?_ (by rw [hpc]; nofun)
  · cases hs with
    | go _ ht _ _ _ =>
      dsimp only
      rw [ht]
      exact hpc
    | take _ _ _ ht _ _ =>
      dsimp only
      rw [ht]
      exact hpc
    | ret _ _ _ hidle _ => exact absurd hidle hne
  · cases hpc.symm.trans (hT.writer hne).1
  · dsimp only at hi
    rcases hpc' with he | ⟨ev, he⟩ <;> cases he.symm.trans hi
  · rw [hpc]
    nofun
  · rw [hpc]
    nofun

theorem setGot {w : ℕ} {T : WorkerThread} (h : ThreadsOk s) (hpc : (s.workers w).pc = .get)
    (hs : (s.workers w).getStep = some T) : ThreadsOk (s.setWorker w T) := by
  have hT := h.worker w
  obtain ⟨E, hE, rfl⟩ := Option.map_eq_some_iff.1 hs
  obtain ⟨_, hidle, hm, hp⟩ := Events.get_spec hE
  refine h.setWorker ⟨hT.tx, Events.inv_get hT.events hE, Events.known_of_zero hm, Events.owned_get hT.owned hE,
    fun hne => absurd hidle hne, fun hne => ?_, hT.index, hT.count, nofun⟩ rfl hp ?_ ?_ (by rw [hpc]; nofun)
  · cases hpc.symm.trans (hT.writer hne).1
  · rw [hpc]
    nofun
  · rw [hpc]
    nofun

/-- **A step of a load**; at its end the caller goes on. -/
theorem loadStep {c : ℕ} {goOn : Threads → Threads} (h : ThreadsOk s) (hat : s.ReaderAt c)
    (hgo : ∀ t : Threads, ThreadsOk t → (t.workers c).mOutput.reader = .idle →
      t = s.setWorker c { s.workers c with mOutput := Tx.readerStep (s.workers c).mOutput } → ThreadsOk (goOn t)) :
    ThreadsOk (s.loadStep c goOn) := by
  have hT := h.worker c
  have hwriter : (Tx.readerStep (s.workers c).mOutput).writer = (s.workers c).mOutput.writer := Tx.readerStep_writer _
  have h' : ThreadsOk (s.setWorker c { s.workers c with mOutput := Tx.readerStep (s.workers c).mOutput }) := by
    refine h.setShared ⟨Tx.inv_readerStep hT.tx, hT.events, hT.known, hT.owned, hT.consumer, ?_, hT.index, hT.count,
      hT.merging⟩ rfl rfl (fun _ => hat) (fun p hp => h.poster c p hp)
    dsimp only
    rw [hwriter]
    exact hT.writer
  unfold Threads.loadStep
  dsimp only
  split
  · rename_i hidle
    exact hgo _ h' (by rw [worker_self]; exact hidle) rfl
  · exact h'

/-- **A step of a post**; at its end the caller goes on. -/
theorem postStep {k p : ℕ} {flags : BitVec 32} {goOn : Threads → Threads} (h : ThreadsOk s) (hat : s.PosterAt k p)
    (hf : flags &&& ~~~(Events.kWaitFlag ||| Events.kEvents) = 0#32) (hs : s.postStep k p flags goOn = some s')
    (hgo : ∀ (t : Threads) (E : Events.Sys), ThreadsOk t → (t.workers k).mEvents.posters p = .idle →
      t = s.setWorker k { s.workers k with mEvents := E } → ThreadsOk (goOn t)) : ThreadsOk s' := by
  have hT := h.worker k
  obtain ⟨E, hE, rfl⟩ := Option.map_eq_some_iff.1 hs
  have hspec : Events.Inv E ∧ Events.Known E ∧ Events.Owned E ∧ Events.SameConsumer (s.workers k).mEvents E ∧
      ∀ q ≠ p, E.posters q = (s.workers k).mEvents.posters q := by
    split at hE
    · obtain ⟨hm, hc, _, hq⟩ := Events.post_spec hE
      exact ⟨Events.inv_post hT.events hE, Events.known_of_or hT.known hf hm, Events.owned_post hT.owned hE, hc, hq⟩
    · obtain ⟨hm, hc, hq, _⟩ := Events.posterStep_spec hE
      exact ⟨Events.inv_posterStep hT.events hE, Events.known_of_eq hT.known hm, Events.owned_posterStep hT.owned hE, hc, hq⟩
  obtain ⟨hinv, hk, ho, hc, hq⟩ := hspec
  have h' : ThreadsOk (s.setWorker k { s.workers k with mEvents := E }) := by
    refine h.setShared ⟨hT.tx, hinv, hk, ho, fun hne => hT.consumer (fun he => hne (hc.idle.2 he)), hT.writer,
      hT.index, hT.count, hT.merging⟩ rfl rfl (fun hr => h.reader k hr) (fun q hne => ?_)
    by_cases he : q = p
    · exact he ▸ hat
    · dsimp only at hne
      rw [hq q he] at hne
      exact h.poster k q hne
  dsimp only
  split
  · rename_i hidle
    exact hgo _ E h' (by rw [worker_self]; exact hidle) rfl
  · exact h'

theorem workerMove {b : Build} {w : ℕ} (h : ThreadsOk s) (hw : w < s.main.mWorkersSize) (hs : WorkerMove b s w s') :
    ThreadsOk s' := by
  have hT := h.worker w
  cases hs with
  | @own ho P hP =>
    obtain ⟨hms, hpc⟩ := own_sameTree (hw.trans_le h.size) ho hP
    refine (h.withQueues P.queues).setWorker (hT.put ho hms hpc) rfl rfl (fun i hi hlt hc => ?_) (fun h0 hn => ?_)
      (fun hstop => ?_)
    · have ht := ho.merge i hi hlt
      rw [show (s.workers w).mergeState.contains i = false from hc] at ht
      cases ht
    · exact absurd (ho.notify hn) h0
    · have hstop' : (s.own.workers w).pc = .stopped := hstop
      unfold Pool.workerStep at hP
      simp only [hstop'] at hP
      cases hP
  | @wait hpc T hT' =>
    obtain ⟨E, hE, ho, hstep, rfl⟩ := hT.waitStep hT'
    exact h.setWait hpc hE ho hstep
  | get hpc hT' => exact h.setGot hpc hT'
  | @load i hpc hi hc =>
    refine h.loadStep (.inr ⟨w, i, hpc, hi, hc, rfl⟩) (fun t ht hidle he => ?_)
    have hw' : t.workers w = s.workers w := by
      rw [he]
      exact worker_other (hT.child_ne i).symm _
    have hT' := ht.worker w
    rw [hw'] at hT'
    refine ht.setWorker (w := w) ?_ rfl rfl ?_ ?_ (by rw [hw', hpc]; nofun) <;> rw [hw']
    · exact ⟨hT'.tx, hT'.events, hT'.known, hT'.owned, fun hne => (nomatch hpc.symm.trans (hT'.consumer hne)),
        fun hne => (nomatch hpc.symm.trans (hT'.writer hne).1), hT'.index, hT'.count, fun j hj => by cases hj; exact hi⟩
    · intro j hj _ _
      cases hpc.symm.trans hj
      exact .inl hidle
    · rw [hpc]
      nofun
  | commit hpc hno =>
    have hreader : (s.workers w).commitStep.mOutput.reader = (s.workers w).mOutput.reader := Tx.writerStep_reader _
    refine h.setWorker ⟨Tx.inv_writerStep hT.tx, hT.events, hT.known, hT.owned,
      fun hne => (nomatch hpc.symm.trans (hT.consumer hne)), fun hne => ⟨?_, rfl⟩, hT.index, hT.count,
      fun i hi => ?_⟩ hreader rfl ?_ ?_ (by rw [hpc]; nofun)
    · exact (if_neg hne).trans hpc
    · unfold WorkerThread.commitStep at hi
      dsimp only at hi
      split at hi
      · cases hi
      · cases hpc.symm.trans hi
    · rw [hpc]
      nofun
    · rw [hpc]
      nofun
  | post hpc h0 hs =>
    refine h.postStep (.inr ⟨h0, hw, rfl, hpc⟩) rfl hs (fun t E ht hidle he => ?_)
    have hw' : t.workers w = s.workers w := by
      rw [he]
      exact worker_other (parent_ne h0).symm _
    have hT' := ht.worker w
    rw [hw'] at hT'
    refine ht.setWorker (w := w) ?_ rfl rfl ?_ ?_ (by rw [hw', hpc]; nofun) <;> rw [hw']
    · exact ⟨hT'.tx, hT'.events, hT'.known, hT'.owned, fun _ => rfl,
        fun hne => (nomatch hpc.symm.trans (hT'.writer hne).1), hT'.index, hT'.count, nofun⟩
    · rw [hpc]
      nofun
    · exact fun _ _ => .inl hidle

/-! ## The steps of the main thread -/

/-- Nobody merges from worker 0. -/
theorem reader_zero (h : ThreadsOk s) (hr : (s.workers 0).mOutput.reader ≠ .idle) :
    s.main.pc = .idle ∧ 0 < s.main.mWorkersSize := by
  rcases h.reader 0 hr with ⟨_, hm⟩ | ⟨w, i, _, _, _, hc⟩
  · exact hm
  · exact absurd hc ((h.worker w).child_ne_zero i)

theorem poster_zero (h : ThreadsOk s) {k : ℕ} (hp : (s.workers k).mEvents.posters 0 ≠ .idle) :
    k < s.main.mWorkersSize ∧ (s.main.pc = .posting k ∨ s.main.pc = .stopping k) := by
  rcases h.poster k 0 hp with ⟨_, hm⟩ | ⟨h0, _⟩
  · exact hm
  · exact absurd rfl h0

/-- The main thread posts to no worker. -/
theorem goto_of_idle (h : ThreadsOk s) (hpc : s.main.pc ≠ .idle) (hp : ∀ k, (s.workers k).mEvents.posters 0 = .idle)
    (pc : MainPc) (hj : ∀ k, pc = .joining k → ∀ w < k, (s.workers w).pc = .stopped) : ThreadsOk (s.mainGoto pc) :=
  h.setMain (fun hr => absurd (h.reader_zero hr).1 hpc) (fun k hk => absurd (hp k) hk) (fun _ hp _ => hp) hj h.size h.threads

theorem post (h : ThreadsOk s) {k : ℕ} {flags : BitVec 32} {pc : MainPc} (hk : k < s.main.mWorkersSize)
    (hpc : s.main.pc = .posting k ∨ s.main.pc = .stopping k) (hj : ∀ k, pc ≠ .joining k)
    (hf : flags &&& ~~~(Events.kWaitFlag ||| Events.kEvents) = 0#32)
    (hs : s.postStep k 0 flags (fun s => s.mainGoto pc) = some s') : ThreadsOk s' := by
  refine h.postStep (.inl ⟨rfl, hk, hpc⟩) hf hs (fun t E ht hidle he => ?_)
  have hmain : t.main = s.main := by
    rw [he]
    rfl
  refine ht.goto_of_idle ?_ (fun j => ?_) pc (fun j hpc => absurd hpc (hj j))
  · rw [hmain]
    rcases hpc with hpc | hpc <;> rw [hpc] <;> nofun
  · by_contra hne
    have hj := (ht.poster_zero hne).2
    rw [hmain] at hj
    have hjk : j = k := by rcases hpc with hpc | hpc <;> rw [hpc] at hj <;> rcases hj with hj | hj <;> cases hj <;> rfl
    exact hne (hjk ▸ hidle)

theorem no_poster (h : ThreadsOk s) (hpc : ∀ k < s.main.mWorkersSize, s.main.pc ≠ .posting k ∧ s.main.pc ≠ .stopping k)
    (k : ℕ) : (s.workers k).mEvents.posters 0 = .idle := by
  by_contra hne
  obtain ⟨hk, hm⟩ := h.poster_zero hne
  exact hm.elim (hpc k hk).1 (hpc k hk).2

theorem mainStep (h : ThreadsOk s) (hs : s.mainStep = some s') : ThreadsOk s' := by
  unfold Threads.mainStep at hs
  cases hpc : s.main.pc with
  | idle =>
    simp only [hpc] at hs
    split at hs
    · cases hs
    · rename_i hr
      rw [← Option.some.inj hs]
      exact h.loadStep (h.reader 0 hr) (fun t ht _ _ => ht)
  | posting k =>
    simp only [hpc] at hs
    split at hs
    · rename_i hk
      exact h.post hk (.inl hpc) (by nofun) rfl hs
    · rename_i hk
      obtain ⟨P, hP, rfl⟩ := Option.map_eq_some_iff.1 hs
      simp only [Pool.mainStep, Threads.own, hpc, hk, if_false] at hP
      cases hP
      refine h.goto_of_idle (by rw [hpc]; nofun) (h.no_poster (fun j hj => ?_)) .idle nofun
      rw [hpc]
      exact ⟨fun he => hk (by cases he; exact hj), nofun⟩
  | stopping k =>
    simp only [hpc] at hs
    split at hs
    · rename_i hk
      exact h.post hk (.inr hpc) (by nofun) rfl hs
    · rename_i hk
      obtain ⟨P, hP, rfl⟩ := Option.map_eq_some_iff.1 hs
      simp only [Pool.mainStep, Threads.own, hpc, hk, if_false] at hP
      cases hP
      refine h.goto_of_idle (by rw [hpc]; nofun) (h.no_poster (fun j hj => ?_)) (.joining 0) ?_
      · rw [hpc]
        exact ⟨nofun, fun he => hk (by cases he; exact hj)⟩
      · rintro _ ⟨⟩ w hw
        exact absurd hw (Nat.not_lt_zero w)
  | joining k =>
    have hidle : ∀ j, (s.workers j).mEvents.posters 0 = .idle := h.no_poster (fun j _ => by rw [hpc]; exact ⟨nofun, nofun⟩)
    have hne : s.main.pc ≠ .idle := by rw [hpc]; nofun
    simp only [hpc] at hs
    obtain ⟨P, hP, rfl⟩ := Option.map_eq_some_iff.1 hs
    unfold Pool.mainStep at hP
    by_cases hk : k < s.main.mWorkersSize
    · by_cases hw : (s.workers k).pc = .stopped
      · simp only [Threads.own, hpc, hk, if_true, WorkerThread.own, hw] at hP
        cases hP
        refine h.goto_of_idle hne hidle _ ?_
        rintro _ ⟨⟩ u hu
        rcases Nat.lt_succ_iff_lt_or_eq.1 hu with hlt | rfl
        · exact h.joined k hpc u hlt
        · exact hw
      · simp only [Threads.own, hpc, hk, if_true, WorkerThread.own, hw, if_false] at hP
        cases hP
    · simp only [Threads.own, hpc, hk, if_false] at hP
      cases hP
      refine h.setMain (fun hr => absurd (h.reader_zero hr).1 hne) (fun j hj => absurd (hidle j) hj) (fun p hp hn => ?_) nofun
        (Nat.zero_le _) h.threads
      cases (h.joined k hpc p (hp.trans_le (Nat.le_of_not_lt hk))).symm.trans hn

/-! ## The calls -/

theorem new_ok (w n : ℕ) : (WorkerThread.new w n).Ok w where
  tx := Tx.inv_init
  events := Events.inv_init
  known := Events.known_init
  owned := Events.owned_init
  consumer := fun hne => absurd rfl hne
  writer := fun hne => absurd rfl hne
  index := rfl
  count := (MergeState.new_spec w n).2.1
  merging := nofun

theorem init_ok (hardwareConcurrency : ℕ) : ThreadsOk (Threads.init hardwareConcurrency) where
  worker := fun w => new_ok w 0
  reader := fun _ hne => absurd rfl hne
  poster := fun _ _ hne => absurd rfl hne
  joined := nofun
  size := Nat.zero_le _
  threads := (clampThreads_spec hardwareConcurrency).2

theorem start (h : ThreadsOk s) (hpc : s.main.pc = .idle) : ThreadsOk s.start := by
  unfold Threads.start
  split
  · exact h
  · exact ⟨fun w => new_ok w _, fun _ hne => absurd rfl hne, fun _ _ hne => absurd rfl hne,
      fun k hk => (nomatch hpc.symm.trans hk), h.threads, h.threads⟩

theorem not_busy (hb : s.busy = false) : s.main.pc = .idle ∧ (s.workers 0).mOutput.reader = .idle := by
  simpa [Threads.busy] using hb

theorem call (h : ThreadsOk s) (hb : s.busy = false) (c : Call) : ThreadsOk (s.call c) := by
  obtain ⟨hpc, hr⟩ := not_busy hb
  have hset : (∀ c, c ≠ .start → ThreadsOk { s with main := (s.own.call c).main, queues := (s.own.call c).queues }) := by
    intro c hc
    refine (h.withQueues (s.own.call c).queues).setMain (fun hne => absurd hr hne)
      (fun k hk => absurd (h.poster_zero hk).2 ?_) ?_
      (fun k hk => absurd hk (call_not_joining hpc c k)) ?_ ?_
    · rw [hpc]
      exact fun he => he.elim nofun nofun
    · rw [call_mWorkersSize s.own hc]
      exact fun _ hp _ => hp
    · rw [call_mWorkersSize s.own hc]
      exact h.size
    · rcases call_mThreads s.own c with he | ⟨threads, he⟩ <;> rw [he]
      · exact h.threads
      · exact (clampThreads_spec threads).2
  unfold Threads.call
  cases c with
  | start => exact h.start hpc
  | loadResults =>
    change ThreadsOk s.loadResults
    unfold Threads.loadResults
    split
    · exact h
    · rename_i hn
      exact h.loadStep (.inl ⟨rfl, hpc, Nat.pos_of_ne_zero hn⟩) (fun t ht _ _ => ht)
  | _ => exact hset _ nofun

/-- **Every step keeps it.** -/
theorem step {b : Build} {a : Threads.Action} (h : ThreadsOk s) (hs : s.step b a = some s') : ThreadsOk s' := by
  unfold Threads.step at hs
  cases a with
  | call c =>
    simp only at hs
    split at hs
    · cases hs
    · rename_i hb
      rw [← Option.some.inj hs]
      exact h.call (Bool.eq_false_iff.2 hb) c
  | main => exact h.mainStep hs
  | worker w =>
    simp only at hs
    split at hs
    · rename_i hw
      exact h.workerMove hw (workerMove_cases hs)
    · cases hs
  | wake w =>
    simp only at hs
    split at hs
    · rename_i hc
      rw [← Option.some.inj hs]
      have hT := h.worker w
      exact h.setShared ⟨hT.tx, Events.inv_wake hT.events hc, Events.known_of_eq hT.known rfl,
        hT.owned.move (by rw [hc]; rfl), fun _ => hT.consumer (by rw [hc]; nofun), hT.writer, hT.index, hT.count,
        hT.merging⟩ rfl rfl (h.reader w) (h.poster w)
    · cases hs

end ThreadsOk

end Fzx
