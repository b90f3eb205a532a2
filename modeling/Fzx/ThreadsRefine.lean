import Fzx.Lib.Simulation
import Fzx.ThreadsInv
/-!
# ThreadsRefine — the threads are the pool

Every step of the threads is one of the pool or none (`step_simulates`): `wait` and `get` take the events at their
exchange, `post` posts at its `fetch_or`, `commit` commits at its exchange and `load` loads at the exchange that gets what
it will return.
-/
namespace Fzx

open Lib

/-! ## Own work -/

/-- A worker's own work beside what it shares. -/
def Worker.share (W : Worker) (mEvents : EventSet) (mOutput : Output) : Worker :=
  { W with mEvents := mEvents, mOutput := { mOutput with writeBuffer := W.out } }

section

variable (W : Worker) (E : EventSet) (O : Output)

theorem share_enterMerge : (W.share E O).enterMerge = W.enterMerge.share E O := rfl

theorem share_react (mJob : Job) (ev : EventSet) {goOn : Worker → Worker}
    (hgo : ∀ W : Worker, goOn (W.share E O) = (goOn W).share E O) :
    (W.share E O).react mJob ev goOn = (W.react mJob ev goOn).share E O := by
  unfold Worker.react
  split
  · rfl
  · split
    · change (if (W.loadJob mJob).2 then (W.loadJob mJob).1.startMatch.share E O else goOn ((W.loadJob mJob).1.share E O)) =
        (if (W.loadJob mJob).2 then (W.loadJob mJob).1.startMatch else goOn (W.loadJob mJob).1).share E O
      split
      · rfl
      · exact hgo _
    · exact hgo W

theorem share_mergeChild (i : ℕ) (cres : Results) :
    Pool.mergeChild (W.share E O) i cres = (Pool.mergeChild W i cres).share E O := by
  unfold Pool.mergeChild
  change (if cres.newerThan W.out then (W.goto .wait).share E O
    else if !cres.sameTick W.out then (W.goto _).share E O else _) = _
  split
  · rfl
  · split <;> rfl

end

theorem share_takeStep {p q : Pool} {w : ℕ} {E : EventSet} {O : Output} (hqueues : q.queues = p.queues)
    (hw : q.workers w = (p.workers w).share E O) (queue : ℕ) : q.takeStep w queue =
      { q with queues := (p.takeStep w queue).queues }.setWorker w (((p.takeStep w queue).workers w).share E O) := by
  unfold Pool.takeStep
  rw [hw, hqueues]
  dsimp only
  rw [setWorker_self]
  have hjob : ((p.workers w).share E O).job = (p.workers w).job := rfl
  rw [hjob]
  split <;> rfl

/-- The pool's worker `w` does its own work as the thread does. -/
theorem workerStep_share {b : Build} {p q P : Pool} {w : ℕ} {E : EventSet} {O : Output} {T : WorkerThread}
    (ho : T.OnOwn w) (hT : p.workers w = T.own) (hjob : q.main.mJob = p.main.mJob) (hqueues : q.queues = p.queues)
    (hw : q.workers w = (p.workers w).share E O)
    (hread : ∀ i, T.pc = .merging i → (q.workers (T.mergeState.child i)).mOutput.readBuffer =
      (p.workers (T.mergeState.child i)).mOutput.readBuffer)
    (h : p.workerStep b w {} = some P) :
    q.workerStep b w {} = some ({ q with queues := P.queues }.setWorker w ((P.workers w).share E O)) := by
  have hset : ∀ {W W' : Worker}, W = W'.share E O → some (q.setWorker w W) =
      some ({ q with queues := p.queues }.setWorker w (((p.setWorker w W').workers w).share E O)) := by
    rintro W W' rfl
    rw [setWorker_self, ← hqueues]
  unfold Pool.workerStep at h ⊢
  rw [hw, hT]
  rw [hT] at h
  have hown : T.own.pc = T.pc := rfl
  have hshare : (T.own.share E O).pc = T.pc := rfl
  cases hpc : T.pc with
  | wait => exact absurd hpc ho.wait
  | get => exact absurd hpc ho.get
  | woken ev =>
    simp only [hown, hpc] at h
    simp only [hshare, hpc]
    cases h
    rw [hjob]
    exact hset (share_react _ _ _ _ _ (fun W => share_enterMerge W E O))
  | take =>
    simp only [hown, hpc] at h
    simp only [hshare, hpc]
    obtain ⟨queue, hq, rfl⟩ := Option.map_eq_some_iff.1 h
    have hq' : (T.own.share E O).job.mQueue = some queue := hq
    rw [hq', Option.map_some, share_takeStep hqueues hw queue]
  | chunk start stop =>
    simp only [hown, hpc] at h
    simp only [hshare, hpc]
    obtain ⟨query, hq, h⟩ := Option.bind_eq_some_iff.1 h
    obtain ⟨items, hm, rfl⟩ := Option.map_eq_some_iff.1 h
    have hq' : (T.own.share E O).job.mQuery = some query := hq
    have hm' : matchItems b (T.own.share E O).job.mItems query.val (List.range' start (stop - start))
        (T.own.share E O).out.mItems = some items := hm
    rw [hq', Option.bind_some, hm', Option.map_some]
    exact hset rfl
  | got ev =>
    simp only [hown, hpc] at h
    simp only [hshare, hpc]
    cases h
    rw [hjob]
    exact hset (share_react _ _ _ _ _ (fun W => rfl))
  | merge i =>
    simp only [hown, hpc] at h
    simp only [hshare, hpc]
    have hms : (T.own.share E O).mergeState = T.own.mergeState := rfl
    rw [hms]
    by_cases hi : i < T.own.mergeState.size
    · have hc : T.own.mergeState.contains i = true := ho.merge i hpc hi
      rw [if_pos hi, if_pos hc] at h ⊢
      cases h
      exact hset rfl
    · rw [if_neg hi] at h ⊢
      cases h
      exact hset rfl
  | merging i =>
    simp only [hown, hpc] at h
    simp only [hshare, hpc]
    cases h
    have hr : (q.workers ((T.own.share E O).mergeState.child i)).mOutput.readBuffer = _ := hread i hpc
    rw [hr]
    exact hset (share_mergeChild _ _ _ _ _)
  | publish =>
    simp only [hown, hpc] at h
    simp only [hshare, hpc]
    have hp : (T.own.share E O).published = T.own.published := rfl
    have hp' : T.own.published = true := (ho.publish hpc).1
    rw [hp]
    rw [if_pos hp'] at h ⊢
    cases h
    exact hset rfl
  | notify =>
    simp only [hown, hpc] at h
    simp only [hshare, hpc]
    rw [if_pos (ho.notify hpc)] at h ⊢
    cases h
    exact hset rfl
  | stopped =>
    simp only [hown, hpc] at h
    cases h

/-! ## The state of the pool -/

section

variable {T : WorkerThread} {l p : Bool}

theorem WorkerThread.absPc_wait (hpc : T.pc = .wait) :
    T.absPc l p = (T.mEvents.consumer.taken.map WorkerPc.woken).getD .wait := by
  unfold WorkerThread.absPc
  rw [hpc]

theorem WorkerThread.absPc_merge {i : ℕ} (hpc : T.pc = .merge i) : T.absPc l p = if l then .merging i else .merge i := by
  unfold WorkerThread.absPc
  rw [hpc]

theorem WorkerThread.absPc_publish (hpc : T.pc = .publish) :
    T.absPc l p = if T.mOutput.committed then .notify else .publish := by
  unfold WorkerThread.absPc
  rw [hpc]

theorem WorkerThread.absPc_notify (hpc : T.pc = .notify) : T.absPc l p = if p then .wait else .notify := by
  unfold WorkerThread.absPc
  rw [hpc]

/-- In no call a thread is where its worker is. -/
theorem WorkerThread.absPc_own (hc : T.mEvents.consumer = .idle) (hw : T.mOutput.writer = .idle) :
    T.absPc false false = T.pc := by
  unfold WorkerThread.absPc
  rw [hc, (Tx.of_writer_idle hw).2]
  cases T.pc <;> rfl

theorem WorkerThread.abs_own (hc : T.mEvents.consumer = .idle) (hw : T.mOutput.writer = .idle) :
    T.abs false false = T.own.share (Events.ofBits T.mEvents.mState) T.mOutput.output := by
  unfold WorkerThread.abs
  rw [absPc_own hc hw, (Tx.of_writer_idle hw).1, Bool.not_false, Bool.and_true]
  rfl

end

theorem pool_ext {P Q : Pool} (hm : P.main = Q.main) (hw : ∀ w, P.workers w = Q.workers w) (hq : P.queues = Q.queues) :
    P = Q := by
  cases P
  cases Q
  obtain rfl := hm
  obtain rfl := hq
  exact congrArg (fun workers => Pool.mk _ workers _) (funext hw)

theorem setWorker_eq_self {P : Pool} {w : ℕ} {W : Worker} (h : P.workers w = W) : P.setWorker w W = P := by
  subst h
  refine pool_ext rfl (fun v => ?_) rfl
  by_cases hv : v = w
  · rw [hv, setWorker_self]
  · rw [setWorker_other hv]

/-! ## How far a call is -/

/-- How far the calls on a worker's event word and output are from their next access to what the pool knows of, or from
their end.  The main thread loads from worker 0 in calls of its own. -/
def WorkerThread.rank (w : ℕ) (T : WorkerThread) : ℕ :=
  T.mEvents.consumer.rank + ∑ p ∈ Finset.range 64, (T.mEvents.posters p).rank + T.mOutput.writer.rank +
    if w = 0 then T.mOutput.reader.rank else T.mOutput.rank

def Threads.rank (s : Threads) : ℕ := ∑ w ∈ Finset.range 64, (s.workers w).rank w

theorem WorkerThread.rank_consumer {w : ℕ} {T : WorkerThread} {E : Events.Sys} {pc : WorkerPc}
    (hp : E.posters = T.mEvents.posters) (hr : E.consumer.rank < T.mEvents.consumer.rank) :
    WorkerThread.rank w { T with mEvents := E, pc := pc } < T.rank w := by
  unfold WorkerThread.rank
  dsimp only
  rw [hp]
  omega

theorem WorkerThread.rank_poster {w p : ℕ} {T : WorkerThread} {E : Events.Sys} (hp64 : p < 64)
    (hq : ∀ q ≠ p, E.posters q = T.mEvents.posters q)
    (hr : E.consumer.rank + (E.posters p).rank < T.mEvents.consumer.rank + (T.mEvents.posters p).rank) :
    WorkerThread.rank w { T with mEvents := E } < T.rank w := by
  have hmem : p ∈ Finset.range 64 := Finset.mem_range.2 hp64
  have hsum : ∑ q ∈ (Finset.range 64).erase p, (E.posters q).rank =
      ∑ q ∈ (Finset.range 64).erase p, (T.mEvents.posters q).rank :=
    Finset.sum_congr rfl (fun q hqp => by rw [hq q (Finset.ne_of_mem_erase hqp)])
  unfold WorkerThread.rank
  dsimp only
  rw [← Finset.add_sum_erase _ _ hmem, ← Finset.add_sum_erase _ (fun q => (T.mEvents.posters q).rank) hmem, hsum]
  omega

theorem WorkerThread.rank_writer {w : ℕ} {T T' : WorkerThread} (hE : T'.mEvents = T.mEvents)
    (hreader : T'.mOutput.reader = T.mOutput.reader) (hloaded : T'.mOutput.loaded = T.mOutput.loaded)
    (hr : T'.mOutput.writer.rank < T.mOutput.writer.rank) : T'.rank w < T.rank w := by
  have hrank : T'.mOutput.rank = T.mOutput.rank := by
    unfold Tx.Sys.rank
    rw [hloaded, hreader]
  unfold WorkerThread.rank
  rw [hE, hrank, hreader]
  omega

theorem WorkerThread.rank_reader {w : ℕ} {T : WorkerThread} {O : Tx.Sys Results} (hw : O.writer = T.mOutput.writer)
    (hr : if w = 0 then O.reader.rank < T.mOutput.reader.rank else O.rank < T.mOutput.rank) :
    WorkerThread.rank w { T with mOutput := O } < T.rank w := by
  unfold WorkerThread.rank
  dsimp only
  rw [hw]
  split at hr
  · rename_i h0
    rw [if_pos h0, if_pos h0]
    omega
  · rename_i h0
    rw [if_neg h0, if_neg h0]
    omega

namespace Threads

variable {s s' : Threads} {v w : ℕ}

theorem rank_setWorker {T : WorkerThread} (hw : w < 64) (hr : T.rank w < (s.workers w).rank w) :
    (s.setWorker w T).rank < s.rank := by
  refine Finset.sum_lt_sum (fun v _ => ?_) ⟨w, Finset.mem_range.2 hw, by rw [worker_self]; exact hr⟩
  by_cases hv : v = w
  · rw [hv, worker_self]
    exact hr.le
  · rw [worker_other hv]

theorem rank_goto (pc : WorkerPc) : (s.goto w pc).rank = s.rank := by
  refine Finset.sum_congr rfl (fun v _ => ?_)
  by_cases hv : v = w
  · have hself : (s.goto w pc).workers w = (s.workers w).goto pc := worker_self _ _ _
    rw [hv, hself]
    rfl
  · have hother : (s.goto w pc).workers v = s.workers v := worker_other hv _
    rw [hother]

end Threads

namespace Threads

variable {s s' : Threads} {v w : ℕ}

theorem abs_eq {P : Pool} (hm : { s.main with pc := s.absPc } = P.main) (hw : ∀ w, s.absWorker w = P.workers w)
    (hq : s.queues = P.queues) : s.abs = P := pool_ext hm hw hq

theorem absWorker_congr (hT : s'.workers v = s.workers v)
    (hl : ∀ c, s.source v = some c → (s'.workers c).mOutput.loaded = (s.workers c).mOutput.loaded)
    (hp : v ≠ 0 → (s'.workers (parent v)).mEvents.posters v = (s.workers (parent v)).mEvents.posters v) :
    s'.absWorker v = s.absWorker v := by
  have hsource : s'.source v = s.source v := by
    unfold Threads.source
    rw [hT]
  have hloaded : s'.loaded v = s.loaded v := by
    unfold Threads.loaded
    rw [hsource]
    cases hs : s.source v with
    | none => rfl
    | some c => exact hl c hs
  have hposted : s'.posted v = s.posted v := by
    unfold Threads.posted
    by_cases h0 : v = 0
    · rw [decide_eq_false (not_not.2 h0), Bool.false_and, Bool.false_and]
    · rw [hp h0]
  unfold Threads.absWorker
  rw [hT, hloaded, hposted]

theorem loaded_eq_false (hr : ∀ i < (s.workers w).mergeState.size,
    (s.workers ((s.workers w).mergeState.child i)).mOutput.reader = .idle) : s.loaded w = false := by
  unfold Threads.loaded Threads.source
  cases hpc : (s.workers w).pc with
  | merge i =>
    dsimp only
    split
    · rename_i hi
      rw [Option.any_some]
      unfold Tx.Sys.loaded
      rw [hr i hi]
    · rfl
  | _ => rfl

theorem posted_setWorker {T : WorkerThread} (hp : T.mEvents.posters = (s.workers w).mEvents.posters) :
    (s.setWorker w T).posted v = s.posted v := by
  have hposters : ∀ k, ((s.setWorker w T).workers k).mEvents.posters = (s.workers k).mEvents.posters := by
    intro k
    by_cases hk : k = w
    · rw [hk, worker_self, hp]
    · rw [worker_other hk]
  unfold Threads.posted
  rw [hposters]

theorem absPc_congr (hm : s'.main = s.main)
    (hp : ∀ k, (s'.workers k).mEvents.posters 0 = (s.workers k).mEvents.posters 0) : s'.absPc = s.absPc := by
  unfold Threads.absPc Threads.mainPosted
  rw [hm]
  cases s.main.pc with
  | posting k =>
    dsimp only
    rw [hp]
  | stopping k =>
    dsimp only
    rw [hp]
  | _ => rfl

/-- **A worker that changes nothing of what the others wait for** is the only one to change. -/
theorem abs_setWorker {T : WorkerThread} (hl : T.mOutput.loaded = (s.workers w).mOutput.loaded)
    (hp : T.mEvents.posters = (s.workers w).mEvents.posters) :
    (s.setWorker w T).abs = s.abs.setWorker w ((s.setWorker w T).absWorker w) := by
  have hloaded : ∀ c, ((s.setWorker w T).workers c).mOutput.loaded = (s.workers c).mOutput.loaded := by
    intro c
    by_cases hc : c = w
    · rw [hc, worker_self, hl]
    · rw [worker_other hc]
  have hposters : ∀ k, ((s.setWorker w T).workers k).mEvents.posters = (s.workers k).mEvents.posters := by
    intro k
    by_cases hk : k = w
    · rw [hk, worker_self, hp]
    · rw [worker_other hk]
  refine abs_eq ?_ (fun v => ?_) rfl
  · have hpc : (s.setWorker w T).absPc = s.absPc := absPc_congr rfl (fun k => by rw [hposters])
    rw [hpc]
    rfl
  · by_cases hv : v = w
    · rw [hv, setWorker_self]
    · rw [setWorker_other hv]
      exact absWorker_congr (worker_other hv T) (fun c _ => hloaded c) (fun _ => by rw [hposters])

theorem abs_setWorker_same {T : WorkerThread} (hl : T.mOutput.loaded = (s.workers w).mOutput.loaded)
    (hp : T.mEvents.posters = (s.workers w).mEvents.posters) (hw : (s.setWorker w T).absWorker w = s.absWorker w) :
    (s.setWorker w T).abs = s.abs := by
  rw [abs_setWorker hl hp, hw]
  exact setWorker_eq_self rfl

theorem abs_goto (pc : WorkerPc) : (s.goto w pc).abs = s.abs.setWorker w { s.absWorker w with
    pc := ((s.workers w).goto pc).absPc ((s.goto w pc).loaded w) (s.posted w) } := by
  have hset : (s.goto w pc).abs = s.abs.setWorker w ((s.goto w pc).absWorker w) :=
    abs_setWorker (T := (s.workers w).goto pc) rfl rfl
  have hself : (s.goto w pc).workers w = (s.workers w).goto pc := worker_self _ _ _
  have hposted : (s.goto w pc).posted w = s.posted w := posted_setWorker (T := (s.workers w).goto pc) rfl
  rw [hset]
  unfold Threads.absWorker WorkerThread.abs
  rw [hself, hposted]
  rfl

end Threads

/-- What the thread did on its own, seen from outside. -/
theorem WorkerThread.abs_put {w : ℕ} {T : WorkerThread} {W : Worker} (h : T.Ok w) (ho : T.OnOwn w) :
    (T.put W).abs false false = W.share (Events.ofBits T.mEvents.mState) T.mOutput.output := by
  have hout : (T.put W).mOutput.output = { T.mOutput.output with writeBuffer := W.out } := Tx.output_write h.tx W.out
  have hbuf : (T.put W).own.out = W.out := by
    change Function.update T.mOutput.tx.mBuffers T.mOutput.tx.mWrite W.out T.mOutput.tx.mWrite = W.out
    rw [Function.update_self]
  have habs := WorkerThread.abs_own (T := T.put W) (h.idle ho).1 (h.idle ho).2
  rw [habs]
  unfold Worker.share
  rw [hout, hbuf]
  rfl

namespace ThreadsOk

open Threads

variable {s s' : Threads} {w : ℕ}

/-- A worker that does not load is the reader of no output. -/
theorem readers_idle (h : ThreadsOk s)
    (hm : ∀ i, (s.workers w).pc = .merge i → i < (s.workers w).mergeState.size → (s.workers w).mergeState.contains i = true)
    {i : ℕ} (hi : i < (s.workers w).mergeState.size) :
    (s.workers ((s.workers w).mergeState.child i)).mOutput.reader = .idle := by
  by_contra hne
  rcases h.reader _ hne with ⟨h0, _⟩ | ⟨v, j, hpc, hj, hc, hch⟩
  · exact (h.worker w).child_ne_zero i h0
  · have hv : v = w := by rw [← (h.worker v).parent_child hj, hch, (h.worker w).parent_child hi]
    subst hv
    rw [hm j hpc hj] at hc
    cases hc

theorem posted_eq_false (h : ThreadsOk s) (hn : (s.workers w).pc = .notify → w = 0) : s.posted w = false := by
  unfold Threads.posted
  rw [Bool.and_eq_false_iff]
  by_contra hno
  simp only [not_or, Bool.not_eq_false, decide_eq_true_eq] at hno
  rcases h.poster _ _ hno.2 with ⟨h0, _⟩ | ⟨h0, _, _, hpc⟩
  · exact hno.1 h0
  · exact h0 (hn hpc)

/-- At its own work the thread is the pool's worker beside what it shares. -/
theorem absWorker_own (h : ThreadsOk s) (ho : (s.workers w).OnOwn w) : s.abs.workers w =
    (s.own.workers w).share (Events.ofBits (s.workers w).mEvents.mState) (s.workers w).mOutput.output := by
  change (s.workers w).abs (s.loaded w) (s.posted w) = _
  rw [loaded_eq_false (fun _ hi => h.readers_idle ho.merge hi), h.posted_eq_false ho.notify]
  exact WorkerThread.abs_own ((h.worker w).idle ho).1 ((h.worker w).idle ho).2

/-- **Own work** is a step of the pool's worker. -/
theorem own_simulates {b : Build} {P : Pool} (h : ThreadsOk s) (hw : w < s.main.mWorkersSize)
    (ho : (s.workers w).OnOwn w) (hP : s.own.workerStep b w {} = some P) :
    s.abs.workerStep b w {} =
      some ({ s with queues := P.queues }.setWorker w ((s.workers w).put (P.workers w))).abs := by
  have hT := h.worker w
  have hread : ∀ i, (s.workers w).pc = .merging i →
      (s.abs.workers ((s.workers w).mergeState.child i)).mOutput.readBuffer =
        (s.own.workers ((s.workers w).mergeState.child i)).mOutput.readBuffer :=
    fun i hi => Tx.output_readBuffer (h.readers_idle ho.merge (hT.merging i hi))
  have hstep := workerStep_share (p := s.own) (q := s.abs) ho rfl rfl rfl (h.absWorker_own ho) hread hP
  rw [hstep]
  -- The thread keeps its children, and none of them is loaded from.
  have hsame : SameTree (s.workers w).mergeState (P.workers w).mergeState := (own_sameTree (hw.trans_le h.size) ho hP).1
  set t : Threads := { s with queues := P.queues } with ht
  have hself : (t.setWorker w ((s.workers w).put (P.workers w))).absWorker w = (P.workers w).share
      (Events.ofBits (s.workers w).mEvents.mState) (s.workers w).mOutput.output := by
    have hloaded : (t.setWorker w ((s.workers w).put (P.workers w))).loaded w = false := by
      refine loaded_eq_false (fun i hi => ?_)
      rw [worker_self] at hi ⊢
      have hc : ((s.workers w).put (P.workers w)).mergeState.child i = (s.workers w).mergeState.child i := by
        change (P.workers w).mergeState.child i = _
        unfold MergeState.child
        rw [hsame.1]
      rw [hc, worker_other (hT.child_ne i)]
      exact h.readers_idle ho.merge (lt_of_lt_of_eq hi hsame.2)
    have hposted : (t.setWorker w ((s.workers w).put (P.workers w))).posted w = false :=
      (posted_setWorker (s := t) (T := (s.workers w).put (P.workers w)) rfl).trans (h.posted_eq_false ho.notify)
    unfold Threads.absWorker
    rw [hloaded, hposted, worker_self]
    exact WorkerThread.abs_put hT ho
  have hset := abs_setWorker (s := t) (w := w) (T := (s.workers w).put (P.workers w))
    (Tx.sameRead_write hT.tx (P.workers w).out).loaded rfl
  rw [hset, hself]
  rfl

/-- **A step of `wait`** takes the events at its exchange. -/
theorem wait_simulates {b : Build} {E : Events.Sys} (hw : w < 64) (hpc : (s.workers w).pc = .wait)
    (hs : Events.WaitStep (s.workers w).mEvents E) {s' : Threads} (he : s' = s.setWorker w { s.workers w with
      mEvents := E, pc := ((s.workers w).mEvents.consumer.taken.map WorkerPc.woken).getD (s.workers w).pc }) :
    (s'.abs = s.abs ∧ s'.rank < s.rank) ∨ s.abs.workerStep b w {} = some s'.abs := by
  have hT : s'.workers w = { s.workers w with
      mEvents := E, pc := ((s.workers w).mEvents.consumer.taken.map WorkerPc.woken).getD (s.workers w).pc } := by
    rw [he, worker_self]
  have hold := WorkerThread.absPc_wait (l := s.loaded w) (p := s.posted w) hpc
  cases hs with
  | go hsame ht ht' _ hr =>
    left
    rw [ht] at hT hold
    have hnew := WorkerThread.absPc_wait (T := s'.workers w) (l := s'.loaded w) (p := s'.posted w) (by rw [hT]; exact hpc)
    rw [he]
    refine ⟨abs_setWorker_same rfl hsame.posters ?_, rank_setWorker hw (WorkerThread.rank_consumer hsame.posters hr)⟩
    rw [← he]
    unfold Threads.absWorker WorkerThread.abs
    rw [hnew, hold, hT]
    dsimp only
    rw [ht', hsame.events]
  | ret hsame ev ht _ hr =>
    left
    rw [ht] at hT hold
    rw [he]
    refine ⟨abs_setWorker_same rfl hsame.posters ?_, rank_setWorker hw (WorkerThread.rank_consumer hsame.posters hr)⟩
    rw [← he]
    unfold Threads.absWorker WorkerThread.abs
    rw [hold, hT]
    dsimp only
    rw [hsame.events]
    rfl
  | take hany hm hp ht ht' _ =>
    right
    rw [ht] at hT hold
    have hnew := WorkerThread.absPc_wait (T := s'.workers w) (l := s'.loaded w) (p := s'.posted w) (by rw [hT]; exact hpc)
    have habs : s'.absWorker w = { s.abs.workers w with mEvents := {}, pc := .woken (s.abs.workers w).mEvents } := by
      unfold Threads.absWorker WorkerThread.abs
      rw [hnew, hT]
      dsimp only
      rw [ht', hm]
      rfl
    have hset : s'.abs = s.abs.setWorker w (s'.absWorker w) := by
      rw [he]
      exact abs_setWorker rfl hp
    have hany' : (s.abs.workers w).mEvents.any = true := hany
    have hpc' : (s.abs.workers w).pc = .wait := hold
    unfold Pool.workerStep
    simp only [hpc']
    rw [if_pos hany', hset, habs]

theorem get_simulates {b : Build} {T : WorkerThread} (hpc : (s.workers w).pc = .get)
    (hs : (s.workers w).getStep = some T) : s.abs.workerStep b w {} = some (s.setWorker w T).abs := by
  obtain ⟨E, hE, rfl⟩ := Option.map_eq_some_iff.1 hs
  obtain ⟨_, _, hm, hp⟩ := Events.get_spec hE
  have hpc' : (s.abs.workers w).pc = .get := by
    change (s.workers w).absPc (s.loaded w) (s.posted w) = _
    unfold WorkerThread.absPc
    rw [hpc]
  have hset := abs_setWorker (s := s) (w := w) (T := { s.workers w with
    mEvents := E, pc := .got (Events.ofBits (s.workers w).mEvents.mState) }) rfl hp
  have habs : (s.setWorker w { s.workers w with
      mEvents := E, pc := .got (Events.ofBits (s.workers w).mEvents.mState) }).absWorker w =
        { s.abs.workers w with mEvents := {}, pc := .got (s.abs.workers w).mEvents } := by
    unfold Threads.absWorker WorkerThread.abs
    rw [worker_self]
    dsimp only
    rw [hm]
    rfl
  rw [hset, habs]
  unfold Pool.workerStep
  simp only [hpc']

/-- **A step of `commit`** commits at its exchange. -/
theorem commit_simulates {b : Build} (h : ThreadsOk s) (hw : w < 64) (hpc : (s.workers w).pc = .publish)
    (hno : ¬ ((s.workers w).published = true ∧ (s.workers w).mOutput.writer = .idle)) :
    ((s.setWorker w (s.workers w).commitStep).abs = s.abs ∧ (s.setWorker w (s.workers w).commitStep).rank < s.rank) ∨
      ∃ back, s.abs.workerStep b w back = some (s.setWorker w (s.workers w).commitStep).abs := by
  have hT := h.worker w
  have hl : (s.workers w).commitStep.mOutput.loaded = (s.workers w).mOutput.loaded := Tx.writerStep_loaded hT.tx
  have hold : ∀ l p, (s.workers w).absPc l p = _ := fun l p => WorkerThread.absPc_publish hpc
  have hself : (s.setWorker w (s.workers w).commitStep).workers w = (s.workers w).commitStep := worker_self _ _ _
  cases Tx.writerStep_cases hT.tx with
  | count hidle ho hc hx hne hr =>
    left
    have hpub : (s.workers w).published = false := Bool.eq_false_iff.2 (fun hp => hno ⟨hp, hidle⟩)
    have hnew : ∀ l p, (s.workers w).commitStep.absPc l p = _ := fun l p =>
      WorkerThread.absPc_publish ((if_neg hne).trans hpc)
    refine ⟨abs_setWorker_same hl rfl ?_, rank_setWorker hw (WorkerThread.rank_writer rfl (Tx.writerStep_reader _) hl hr)⟩
    unfold Threads.absWorker WorkerThread.abs
    rw [hself, hnew, hold, (Tx.of_writer_idle hidle).2, hpub]
    unfold WorkerThread.commitStep
    dsimp only
    rw [ho, hc, hx]
    rfl
  | exchange hs ho hc hx hne =>
    right
    have hpub : (s.workers w).published = true := (hT.writer (Tx.writer_of_counted hs).1).2
    have hnew : ∀ l p, (s.workers w).commitStep.absPc l p = _ := fun l p =>
      WorkerThread.absPc_publish ((if_neg hne).trans hpc)
    have hpc' : (s.abs.workers w).pc = .publish := by
      change (s.workers w).absPc _ _ = _
      rw [hold, (Tx.writer_of_counted hs).2]
      rfl
    have hpub' : (s.abs.workers w).published = false := by
      change ((s.workers w).published && !(s.workers w).mOutput.counted) = false
      rw [hs, Bool.not_true, Bool.and_false]
    refine ⟨(s.workers w).mOutput.tx.mBuffers (s.workers w).mOutput.tx.mUnused, ?_⟩
    have habs : (s.setWorker w (s.workers w).commitStep).absWorker w = { s.abs.workers w with
        published := true, pc := .notify, mOutput := (s.abs.workers w).mOutput.commit
          ((s.workers w).mOutput.tx.mBuffers (s.workers w).mOutput.tx.mUnused) } := by
      unfold Threads.absWorker WorkerThread.abs
      rw [hself, hnew]
      unfold WorkerThread.commitStep
      dsimp only
      rw [ho, hc, hx]
      rfl
    unfold Pool.workerStep
    simp only [hpc', hpub']
    rw [abs_setWorker hl rfl, habs]
    rfl
  | ret hs ho hidle hr =>
    left
    have hpub : (s.workers w).published = true := (hT.writer (Tx.writer_of_committed hs).1).2
    have hposted : (s.setWorker w (s.workers w).commitStep).posted w = false :=
      (posted_setWorker (T := (s.workers w).commitStep) rfl).trans (h.posted_eq_false (by rw [hpc]; nofun))
    have hnew : ∀ l p, (s.workers w).commitStep.absPc l p = _ := fun l p => WorkerThread.absPc_notify (if_pos hidle)
    refine ⟨abs_setWorker_same hl rfl ?_, rank_setWorker hw (WorkerThread.rank_writer rfl (Tx.writerStep_reader _) hl hr)⟩
    unfold Threads.absWorker WorkerThread.abs
    rw [hself, hnew, hold, hposted, hs, hpub, (Tx.writer_of_committed hs).2]
    unfold WorkerThread.commitStep
    dsimp only
    rw [ho, (Tx.of_writer_idle hidle).1]
    rfl

/-! ### Loads -/

/-- The child that a worker loads from has it as its parent. -/
theorem source_eq (h : ThreadsOk s) {c : ℕ} (hs : s.source w = some c) : c ≠ w ∧ c ≠ 0 ∧ parent c = w := by
  unfold Threads.source at hs
  have hT := h.worker w
  cases hpc : (s.workers w).pc with
  | merge i =>
    simp only [hpc] at hs
    split at hs
    · rename_i hi
      rw [← Option.some.inj hs]
      exact ⟨hT.child_ne i, hT.child_ne_zero i, hT.parent_child hi⟩
    · cases hs
  | _ =>
    simp only [hpc] at hs
    cases hs

section

variable {c : ℕ} {O : Tx.Sys Results}

/-- An output is read, and nobody else sees it. -/
theorem absWorker_output (h : ThreadsOk s) (hw : O.writer = (s.workers c).mOutput.writer) :
    (s.setWorker c { s.workers c with mOutput := O }).absWorker c = { s.absWorker c with mOutput := O.output } := by
  have hself : (s.setWorker c { s.workers c with mOutput := O }).workers c = { s.workers c with mOutput := O } :=
    worker_self _ _ _
  have hsource : (s.setWorker c { s.workers c with mOutput := O }).source c = s.source c := by
    unfold Threads.source
    rw [hself]
  have hloaded : (s.setWorker c { s.workers c with mOutput := O }).loaded c = s.loaded c := by
    unfold Threads.loaded
    rw [hsource]
    cases hs : s.source c with
    | none => rfl
    | some d =>
      rw [Option.any_some, Option.any_some, worker_other (h.source_eq hs).1]
  have hposted : (s.setWorker c { s.workers c with mOutput := O }).posted c = s.posted c :=
    posted_setWorker (T := { s.workers c with mOutput := O }) rfl
  unfold Threads.absWorker WorkerThread.abs
  rw [hloaded, hposted, hself]
  unfold WorkerThread.absPc Tx.Sys.committed Tx.Sys.counted
  dsimp only
  rw [hw]

theorem absWorker_output_other {v : ℕ} (hv : v ≠ c)
    (hl : s.source v = some c → O.loaded = (s.workers c).mOutput.loaded) :
    (s.setWorker c { s.workers c with mOutput := O }).absWorker v = s.absWorker v := by
  refine absWorker_congr (worker_other hv _) (fun d hd => ?_) (fun _ => ?_)
  · by_cases hdc : d = c
    · rw [hdc, worker_self]
      exact hl (hdc ▸ hd)
    · rw [worker_other hdc]
  · by_cases hp : parent v = c
    · rw [hp, worker_self]
    · rw [worker_other hp]

theorem absPc_output : (s.setWorker c { s.workers c with mOutput := O }).absPc = s.absPc := by
  refine absPc_congr rfl (fun k => ?_)
  by_cases hk : k = c
  · rw [hk, worker_self]
  · rw [worker_other hk]

end

theorem loadStep_eq (s : Threads) :
    s.loadStep 0 id = s.setWorker 0 { s.workers 0 with mOutput := Tx.readerStep (s.workers 0).mOutput } := by
  unfold Threads.loadStep
  dsimp only
  split <;> rfl

/-- **A step of `loadResults`** loads when it gets what it will return. -/
theorem loadResults_simulates (h : ThreadsOk s) (hn : 0 < s.main.mWorkersSize) : (s.loadStep 0 id).abs =
    if (Tx.readerStep (s.workers 0).mOutput).loaded = true then s.abs.loadResults else s.abs := by
  have hT := h.worker 0
  obtain ⟨-, -, hout⟩ := Tx.output_readerStep hT.tx
  have hself := absWorker_output (s := s) h (Tx.readerStep_writer (s.workers 0).mOutput)
  have hother : ∀ v ≠ 0, (s.loadStep 0 id).absWorker v = s.absWorker v := by
    intro v hv
    rw [loadStep_eq]
    exact absWorker_output_other hv (fun hs => absurd rfl (h.source_eq hs).2.1)
  have hmain : { (s.loadStep 0 id).main with pc := (s.loadStep 0 id).absPc } = s.abs.main := by
    rw [loadStep_eq, absPc_output]
    rfl
  have hqueues : (s.loadStep 0 id).queues = s.abs.queues := by
    rw [loadStep_eq]
    rfl
  rw [← loadStep_eq] at hself
  split
  · rename_i hl
    rw [if_pos hl] at hout
    have hload : s.abs.loadResults = s.abs.setWorker 0 { s.abs.workers 0 with mOutput := (s.abs.workers 0).mOutput.load } :=
      if_neg hn.ne'
    rw [hload]
    refine abs_eq hmain (fun v => ?_) hqueues
    by_cases hv : v = 0
    · rw [hv, setWorker_self, hself, hout]
      rfl
    · rw [setWorker_other hv]
      exact hother v hv
  · rename_i hl
    rw [if_neg hl] at hout
    refine abs_eq hmain (fun v => ?_) hqueues
    by_cases hv : v = 0
    · rw [hv, hself, hout]
      rfl
    · exact hother v hv

theorem loadResults_rank (hr : (s.workers 0).mOutput.reader ≠ .idle) : (s.loadStep 0 id).rank < s.rank := by
  rw [loadStep_eq]
  exact rank_setWorker (by decide) (WorkerThread.rank_reader (Tx.readerStep_writer _) (Tx.readerStep_rank_pc hr))

/-- What a step of a load of worker `w` from its child `c` does to the state of the pool, as `t` has it before the worker
goes on. -/
structure LoadMove (s t : Threads) (w c i : ℕ) : Prop where
  old : (s.absWorker w).pc = if (s.workers c).mOutput.loaded then .merging i else .merge i
  new : t.absWorker w =
    { s.absWorker w with pc := if (Tx.readerStep (s.workers c).mOutput).loaded then .merging i else .merge i }
  child : t.absWorker c = { s.absWorker c with mOutput := (Tx.readerStep (s.workers c).mOutput).output }
  others : ∀ v, v ≠ c → v ≠ w → t.absWorker v = s.absWorker v
  main : { t.main with pc := t.absPc } = s.abs.main
  queues : t.queues = s.queues

theorem loadMove {i c : ℕ} {t : Threads} (h : ThreadsOk s) (hpc : (s.workers w).pc = .merge i)
    (hi : i < (s.workers w).mergeState.size) (hc : c = (s.workers w).mergeState.child i)
    (ht : t = s.setWorker c { s.workers c with mOutput := Tx.readerStep (s.workers c).mOutput }) :
    LoadMove s t w c i := by
  have hT := h.worker w
  have hcw : c ≠ w := hc ▸ hT.child_ne i
  have hsource : ∀ v, s.source v = some c → v = w := fun v hv => by
    rw [← (h.source_eq hv).2.2, hc, hT.parent_child hi]
  have hsourcew : s.source w = some c := by
    unfold Threads.source
    rw [hpc, hc]
    exact if_pos hi
  have htw : t.workers w = s.workers w := by
    rw [ht]
    exact worker_other hcw.symm _
  have hloaded : s.loaded w = (s.workers c).mOutput.loaded := by
    unfold Threads.loaded
    rw [hsourcew]
    rfl
  have hloaded' : t.loaded w = (Tx.readerStep (s.workers c).mOutput).loaded := by
    have htsource : t.source w = some c := by
      rw [← hsourcew]
      unfold Threads.source
      rw [htw]
    unfold Threads.loaded
    rw [htsource, Option.any_some, ht, worker_self]
  have hposted : t.posted w = s.posted w := by
    rw [ht]
    exact posted_setWorker (T := { s.workers c with mOutput := Tx.readerStep (s.workers c).mOutput }) rfl
  refine ⟨?_, ?_, ?_, fun v hv hvw => ?_, ?_, ?_⟩
  · rw [← hloaded]
    exact WorkerThread.absPc_merge hpc
  · unfold Threads.absWorker WorkerThread.abs
    rw [hloaded', hposted, htw, WorkerThread.absPc_merge hpc]
  · rw [ht]
    exact absWorker_output h (Tx.readerStep_writer (s.workers c).mOutput)
  · rw [ht]
    exact absWorker_output_other hv (fun hs => absurd (hsource v hs) hvw)
  · have hpct : t.absPc = s.absPc := by
      rw [ht]
      exact absPc_output
    rw [hpct, ht]
    rfl
  · rw [ht]
    rfl

namespace LoadMove

variable {t : Threads} {c i : ℕ}

/-- The load returns, and the worker goes on with what the pool's worker has. -/
theorem returns (h : LoadMove s t w c i) (hl : (s.workers c).mOutput.loaded = true)
    (hout : (Tx.readerStep (s.workers c).mOutput).output = (s.workers c).mOutput.output) :
    (t.goto w (.merging i)).abs = s.abs := by
  rw [abs_goto]
  refine pool_ext h.main (fun v => ?_) h.queues
  by_cases hvw : v = w
  · have hold : (s.absWorker w).pc = .merging i := by rw [h.old, if_pos hl]
    rw [hvw, setWorker_self, h.new]
    change { s.absWorker w with pc := .merging i } = s.absWorker w
    rw [← hold]
  · rw [setWorker_other hvw]
    change t.absWorker v = s.absWorker v
    by_cases hv : v = c
    · rw [hv, h.child, hout]
      rfl
    · exact h.others v hv hvw

/-- **It gets what it will return**: the pool's worker loads. -/
theorem loads {b : Build} (h : LoadMove s t w c i) (hi : i < (s.workers w).mergeState.size)
    (hc : c = (s.workers w).mergeState.child i) (hcon : (s.workers w).mergeState.contains i = false)
    (hl : (s.workers c).mOutput.loaded = false) (hl' : (Tx.readerStep (s.workers c).mOutput).loaded = true)
    (hout : (Tx.readerStep (s.workers c).mOutput).output = (s.workers c).mOutput.output.load) :
    s.abs.workerStep b w {} = some t.abs := by
  have hpc' : (s.abs.workers w).pc = .merge i := by
    change (s.absWorker w).pc = _
    rw [h.old, hl]
    rfl
  have hms : (s.abs.workers w).mergeState = (s.workers w).mergeState := rfl
  unfold Pool.workerStep
  simp only [hpc', hms]
  rw [if_pos hi, hcon, if_neg Bool.false_ne_true, ← hc]
  refine congrArg some (Eq.symm ?_)
  refine abs_eq h.main (fun v => ?_) h.queues
  by_cases hvw : v = w
  · rw [hvw, setWorker_self, h.new, if_pos hl']
    rfl
  · rw [setWorker_other hvw]
    by_cases hv : v = c
    · rw [hv, setWorker_self, h.child, hout]
      rfl
    · rw [setWorker_other hv]
      exact h.others v hv hvw

/-- It goes on, and nothing of it is seen. -/
theorem goes_on (h : LoadMove s t w c i) (hl : (s.workers c).mOutput.loaded = false)
    (hl' : (Tx.readerStep (s.workers c).mOutput).loaded = false)
    (hout : (Tx.readerStep (s.workers c).mOutput).output = (s.workers c).mOutput.output) : t.abs = s.abs := by
  refine abs_eq h.main (fun v => ?_) h.queues
  by_cases hv : v = c
  · rw [hv, h.child, hout]
    rfl
  · by_cases hvw : v = w
    · have hold : (s.absWorker w).pc = .merge i := by
        rw [h.old, hl]
        rfl
      rw [hvw, h.new, if_neg (by simp [hl']), ← hold]
      rfl
    · exact h.others v hv hvw

end LoadMove

/-- **A step of a load from a child** loads when it gets what it will return; then the worker goes on. -/
theorem load_simulates {b : Build} {i : ℕ} (h : ThreadsOk s) (hw : w < 64) (hpc : (s.workers w).pc = .merge i)
    (hi : i < (s.workers w).mergeState.size) (hc : (s.workers w).mergeState.contains i = false) :
    ((s.loadStep ((s.workers w).mergeState.child i) (fun s => s.goto w (.merging i))).abs = s.abs ∧
        (s.loadStep ((s.workers w).mergeState.child i) (fun s => s.goto w (.merging i))).rank < s.rank) ∨
      s.abs.workerStep b w {} =
        some (s.loadStep ((s.workers w).mergeState.child i) (fun s => s.goto w (.merging i))).abs := by
  set c := (s.workers w).mergeState.child i with hcdef
  have hT := h.worker w
  obtain ⟨hret, hgo, hout⟩ := Tx.output_readerStep (h.worker c).tx
  set t : Threads := s.setWorker c { s.workers c with mOutput := Tx.readerStep (s.workers c).mOutput } with ht
  have hmove : LoadMove s t w c i := loadMove h hpc hi hcdef ht
  have hrank : (Tx.readerStep (s.workers c).mOutput).loaded = false → t.rank < s.rank := by
    intro hl
    refine rank_setWorker (hT.child_lt hw hi) (WorkerThread.rank_reader (Tx.readerStep_writer _) ?_)
    rw [if_neg (hT.child_ne_zero i)]
    exact Tx.readerStep_rank hl
  by_cases hl : (s.workers c).mOutput.loaded = true
  · left
    have hidle := hret hl
    have hl' : (Tx.readerStep (s.workers c).mOutput).loaded = false := by
      unfold Tx.Sys.loaded
      rw [hidle]
    have he : s.loadStep c (fun s => s.goto w (.merging i)) = t.goto w (.merging i) := if_pos hidle
    rw [hl', if_neg Bool.false_ne_true] at hout
    rw [he, rank_goto]
    exact ⟨hmove.returns hl hout, hrank hl'⟩
  · have hl := Bool.eq_false_iff.2 hl
    have he : s.loadStep c (fun s => s.goto w (.merging i)) = t := if_neg (hgo hl)
    rw [he]
    by_cases hl' : (Tx.readerStep (s.workers c).mOutput).loaded = true
    · rw [if_pos hl'] at hout
      exact .inr (hmove.loads hi hcdef hc hl hl' hout)
    · have hl' := Bool.eq_false_iff.2 hl'
      rw [hl', if_neg Bool.false_ne_true] at hout
      exact .inl ⟨hmove.goes_on hl hl' hout, hrank hl'⟩

/-! ### Posts -/

section

variable {k p : ℕ} {E : Events.Sys}

/-- An event word is written, and nobody but its posters sees it. -/
theorem absWorker_events (hc : Events.SameConsumer (s.workers k).mEvents E) :
    (s.setWorker k { s.workers k with mEvents := E }).absWorker k =
      { s.absWorker k with mEvents := Events.ofBits E.mState } := by
  have hself : (s.setWorker k { s.workers k with mEvents := E }).workers k = { s.workers k with mEvents := E } :=
    worker_self _ _ _
  have hloaded : (s.setWorker k { s.workers k with mEvents := E }).loaded k = s.loaded k := by
    have hsource : (s.setWorker k { s.workers k with mEvents := E }).source k = s.source k := by
      unfold Threads.source
      rw [hself]
    unfold Threads.loaded
    rw [hsource]
    refine congrArg (fun f => (s.source k).any f) (funext fun c => ?_)
    by_cases hck : c = k
    · rw [hck, hself]
    · rw [worker_other hck]
  have hposted : (s.setWorker k { s.workers k with mEvents := E }).posted k = s.posted k := by
    unfold Threads.posted
    by_cases h0 : k = 0
    · rw [decide_eq_false (not_not.2 h0), Bool.false_and, Bool.false_and]
    · rw [worker_other (parent_ne h0)]
  unfold Threads.absWorker WorkerThread.abs
  rw [hloaded, hposted, hself]
  unfold WorkerThread.absPc
  dsimp only
  rw [hc.taken]

theorem absWorker_events_other {v : ℕ} (hv : v ≠ k) (hvp : v ≠ 0 → v ≠ p)
    (hq : ∀ q ≠ p, E.posters q = (s.workers k).mEvents.posters q) :
    (s.setWorker k { s.workers k with mEvents := E }).absWorker v = s.absWorker v := by
  refine absWorker_congr (worker_other hv _) (fun c _ => ?_) (fun h0 => ?_)
  · by_cases hck : c = k
    · rw [hck, worker_self]
    · rw [worker_other hck]
  · by_cases hpk : parent v = k
    · rw [hpk, worker_self]
      exact hq v (hvp h0)
    · rw [worker_other hpk]

/-- What a step of a post does to the event word. -/
theorem post_cases {flags : BitVec 32} {goOn : Threads → Threads} (hs : s.postStep k p flags goOn = some s') :
    ∃ E, Events.SameConsumer (s.workers k).mEvents E ∧ (∀ q ≠ p, E.posters q = (s.workers k).mEvents.posters q) ∧
      (((s.workers k).mEvents.posters p = .idle ∧ E.mState = (s.workers k).mEvents.mState ||| flags) ∨
        ((s.workers k).mEvents.posters p ≠ .idle ∧ E.mState = (s.workers k).mEvents.mState ∧
          E.consumer.rank + (E.posters p).rank <
            (s.workers k).mEvents.consumer.rank + ((s.workers k).mEvents.posters p).rank)) ∧
      s' = if E.posters p = .idle then goOn (s.setWorker k { s.workers k with mEvents := E })
        else s.setWorker k { s.workers k with mEvents := E } := by
  obtain ⟨E, hE, rfl⟩ := Option.map_eq_some_iff.1 hs
  by_cases hi : (s.workers k).mEvents.posters p = .idle
  · rw [if_pos hi] at hE
    obtain ⟨hm, hc, _, hq⟩ := Events.post_spec hE
    exact ⟨E, hc, hq, .inl ⟨hi, hm⟩, rfl⟩
  · rw [if_neg hi] at hE
    obtain ⟨hm, hc, hq, hr⟩ := Events.posterStep_spec hE
    exact ⟨E, hc, hq, .inr ⟨hi, hm, hr⟩, rfl⟩

end

section

variable {t : Threads} {E : Events.Sys} (hw : w ≠ 0)
  (ht : t = s.setWorker (parent w) { s.workers (parent w) with mEvents := E })
include hw ht

theorem notify_main (hq : ∀ q ≠ w, E.posters q = (s.workers (parent w)).mEvents.posters q) :
    { t.main with pc := t.absPc } = s.abs.main := by
  subst ht
  have hpc : (s.setWorker (parent w) { s.workers (parent w) with mEvents := E }).absPc = s.absPc := by
    refine absPc_congr rfl (fun j => ?_)
    by_cases hj : j = parent w
    · rw [hj, worker_self]
      exact hq 0 hw.symm
    · rw [worker_other hj]
  rw [hpc]
  rfl

/-- The bit is set, and so the pool's worker waits. -/
theorem notify_abs (h : ThreadsOk s) (hpc : (s.workers w).pc = .notify)
    (he : s' = if E.posters w = .idle then t.goto w .wait else t) :
    s'.abs = t.abs.setWorker w { s.absWorker w with pc := .wait } := by
  have htw : t.workers w = s.workers w := by
    rw [ht]
    exact worker_other (parent_ne hw).symm _
  have hmerge : ∀ {pc}, { t.absWorker w with pc := pc } = { s.absWorker w with pc := pc } := by
    intro pc
    unfold Threads.absWorker WorkerThread.abs
    rw [htw]
  have hposted : t.posted w = (E.posters w ≠ .idle : Bool) := by
    unfold Threads.posted
    rw [ht, worker_self, decide_eq_true hw, Bool.true_and]
  rw [he]
  split
  · have hidle : (s.workers w).mEvents.consumer = .idle := by
      by_contra hne
      cases hpc.symm.trans ((h.worker w).consumer hne)
    have hwait : ((t.workers w).goto .wait).absPc ((t.goto w .wait).loaded w) (t.posted w) = .wait := by
      rw [htw, WorkerThread.absPc_wait rfl]
      unfold WorkerThread.goto
      rw [hidle]
      rfl
    rw [abs_goto, hwait, hmerge]
  · rename_i hne
    have hwait : (t.absWorker w).pc = .wait := by
      have hpc' : (t.workers w).absPc (t.loaded w) (t.posted w) = _ := WorkerThread.absPc_notify (by rw [htw]; exact hpc)
      refine hpc'.trans (if_pos ?_)
      rw [hposted]
      exact decide_eq_true hne
    have hsame : { s.absWorker w with pc := .wait } = t.absWorker w := by rw [← hmerge, ← hwait]
    rw [hsame]
    exact (setWorker_eq_self rfl).symm

/-- **The `fetch_or`**: the pool's worker posts. -/
theorem notify_posts {b : Build} (hc : Events.SameConsumer (s.workers (parent w)).mEvents E)
    (hq : ∀ q ≠ w, E.posters q = (s.workers (parent w)).mEvents.posters q) (hpc : (s.absWorker w).pc = .notify)
    (hm : E.mState = (s.workers (parent w)).mEvents.mState ||| Worker.kMerge) :
    s.abs.workerStep b w {} = some (t.abs.setWorker w { s.absWorker w with pc := .wait }) := by
  have hpw : parent w ≠ w := parent_ne hw
  have hpc' : (s.abs.workers w).pc = .notify := hpc
  unfold Pool.workerStep
  simp only [hpc']
  rw [if_neg hw, setWorker_other hpw]
  refine congrArg some (pool_ext (notify_main hw ht hq).symm (fun v => ?_) (by rw [ht]; rfl))
  by_cases hv : v = parent w
  · rw [hv, setWorker_self, setWorker_other hpw]
    change _ = t.absWorker (parent w)
    rw [ht, absWorker_events hc, hm, Events.ofBits_or_kMerge]
    rfl
  · rw [setWorker_other hv]
    by_cases hvw : v = w
    · rw [hvw, setWorker_self, setWorker_self]
      rfl
    · rw [setWorker_other hvw, setWorker_other hvw]
      change s.absWorker v = t.absWorker v
      rw [ht]
      exact (absWorker_events_other hv (fun _ => hvw) hq).symm

/-- After it nothing is seen of the post. -/
theorem notify_goes_on (hc : Events.SameConsumer (s.workers (parent w)).mEvents E)
    (hq : ∀ q ≠ w, E.posters q = (s.workers (parent w)).mEvents.posters q) (hpc : (s.absWorker w).pc = .wait)
    (hm : E.mState = (s.workers (parent w)).mEvents.mState) :
    t.abs.setWorker w { s.absWorker w with pc := .wait } = s.abs := by
  refine pool_ext (notify_main hw ht hq) (fun v => ?_) (by rw [ht]; rfl)
  by_cases hvw : v = w
  · rw [hvw, setWorker_self, ← hpc]
    rfl
  · rw [setWorker_other hvw]
    change t.absWorker v = s.absWorker v
    rw [ht]
    by_cases hv : v = parent w
    · rw [hv, absWorker_events hc, hm]
      rfl
    · exact absWorker_events_other hv (fun _ => hvw) hq

end

/-- **A step of a worker's notification** posts at the `fetch_or`. -/
theorem notify_simulates {b : Build} (h : ThreadsOk s) (hw64 : w < 64) (hpc : (s.workers w).pc = .notify) (hw : w ≠ 0)
    (hs : s.postStep (parent w) w Worker.kMerge (fun s => s.goto w .wait) = some s') :
    (s'.abs = s.abs ∧ s'.rank < s.rank) ∨ s.abs.workerStep b w {} = some s'.abs := by
  obtain ⟨E, hc, hq, hm, he⟩ := post_cases hs
  set t : Threads := s.setWorker (parent w) { s.workers (parent w) with mEvents := E } with ht
  have hpc' : (s.absWorker w).pc = if s.posted w then .wait else .notify := WorkerThread.absPc_notify hpc
  have hposted : s.posted w = ((s.workers (parent w)).mEvents.posters w ≠ .idle : Bool) := by
    unfold Threads.posted
    rw [decide_eq_true hw, Bool.true_and]
  rw [notify_abs hw ht h hpc he]
  rcases hm with ⟨hidle, hm⟩ | ⟨hidle, hm, hr⟩
  · rw [hposted, decide_eq_false (not_not.2 hidle), if_neg Bool.false_ne_true] at hpc'
    exact .inr (notify_posts hw ht hc hq hpc' hm)
  · rw [hposted, decide_eq_true hidle, if_pos rfl] at hpc'
    have hrank : s'.rank < s.rank := by
      have ht : t.rank < s.rank := rank_setWorker ((parent_lt w hw64 hw).trans hw64) (WorkerThread.rank_poster hw64 hq hr)
      rw [he]
      split
      · exact (rank_goto _).trans_lt ht
      · exact ht
    exact .inl ⟨notify_goes_on hw ht hc hq hpc' hm, hrank⟩

theorem absPc_at {mk : ℕ → MainPc} (hmk : mk = .posting ∨ mk = .stopping) {t : Threads} {k : ℕ} (hpc : t.main.pc = mk k) :
    t.absPc = if t.mainPosted k then mk (k + 1) else mk k := by
  unfold Threads.absPc
  rw [hpc]
  rcases hmk with rfl | rfl <;> rfl

/-- **A step of a post of the main thread** posts at the `fetch_or`. -/
theorem mainPost_simulates {mk : ℕ → MainPc} {k : ℕ} {flags : BitVec 32} {f : EventSet → EventSet} (h : ThreadsOk s)
    (hk : k < 64) (hmk : mk = .posting ∨ mk = .stopping) (hpc : s.main.pc = mk k)
    (hf : ∀ m, Events.ofBits (m ||| flags) = f (Events.ofBits m))
    (hs : s.postStep k 0 flags (fun s => s.mainGoto (mk (k + 1))) = some s') :
    (s'.abs = s.abs ∧ s'.rank < s.rank) ∨ (s.absPc = mk k ∧ s'.abs =
      { s.abs.setWorker k { s.abs.workers k with mEvents := f (s.abs.workers k).mEvents } with
        main := { s.main with pc := mk (k + 1) } }) := by
  obtain ⟨E, hc, hq, hm, he⟩ := post_cases hs
  set t : Threads := s.setWorker k { s.workers k with mEvents := E } with ht
  have hself : t.absWorker k = _ := absWorker_events hc
  have hother : ∀ v ≠ k, t.absWorker v = s.absWorker v := fun v hv => absWorker_events_other hv id hq
  have hworker : ∀ v, s'.absWorker v = t.absWorker v := by
    intro v
    rw [he]
    split <;> rfl
  have hqueues : s'.queues = s.queues := by
    rw [he]
    split <;> rfl
  have hmain : { s'.main with pc := s'.absPc } = { s.main with pc := mk (k + 1) } := by
    rw [he]
    split
    · have hno : (t.mainGoto (mk (k + 1))).mainPosted (k + 1) = false := by
        have hk1 : (t.workers (k + 1)).mEvents.posters 0 = .idle := by
          rw [worker_other (Nat.succ_ne_self k)]
          by_contra hne
          have hat := (h.poster_zero hne).2
          rw [hpc] at hat
          rcases hmk with rfl | rfl <;> rcases hat with hat | hat <;> cases hat
        exact decide_eq_false (not_not.2 hk1)
      have hpc' : (t.mainGoto (mk (k + 1))).absPc = mk (k + 1) := by
        rw [absPc_at hmk rfl, hno]
        rfl
      rw [hpc']
      rfl
    · rename_i hne
      have hyes : t.mainPosted k = true := by
        unfold Threads.mainPosted
        rw [worker_self]
        exact decide_eq_true hne
      have hpc' : t.absPc = mk (k + 1) := (absPc_at (t := t) hmk hpc).trans (if_pos hyes)
      rw [hpc']
      rfl
  have hpcs := absPc_at hmk hpc
  rcases hm with ⟨hidle, hm⟩ | ⟨hidle, hm, hr⟩
  · right
    have hno : s.mainPosted k = false := decide_eq_false (not_not.2 hidle)
    refine ⟨by rw [hpcs, hno]; rfl, ?_⟩
    refine abs_eq hmain (fun v => ?_) hqueues
    rw [hworker]
    change t.absWorker v = (s.abs.setWorker k _).workers v
    by_cases hv : v = k
    · rw [hv, setWorker_self, hself, hm, hf]
      rfl
    · rw [setWorker_other hv]
      exact hother v hv
  · left
    have hyes : s.mainPosted k = true := decide_eq_true hidle
    have hrank : s'.rank < s.rank := by
      have ht : t.rank < s.rank := rank_setWorker hk (WorkerThread.rank_poster (by decide) hq hr)
      rw [he]
      split <;> exact ht
    refine ⟨abs_eq ?_ (fun v => ?_) hqueues, hrank⟩
    · rw [hmain, ← (if_pos hyes : (if s.mainPosted k then mk (k + 1) else mk k) = mk (k + 1)), ← hpcs]
      rfl
    · rw [hworker]
      by_cases hv : v = k
      · rw [hv, hself, hm]
        rfl
      · exact hother v hv

/-- Where the main thread does not post, it is where it is. -/
theorem absPc_of_no_post (h : ThreadsOk s)
    (hno : ∀ k < s.main.mWorkersSize, s.main.pc ≠ .posting k ∧ s.main.pc ≠ .stopping k) : s.absPc = s.main.pc := by
  have hidle := h.no_poster hno
  unfold Threads.absPc Threads.mainPosted
  cases hpc : s.main.pc <;> simp [hidle]

/-- `loadResults` goes on. -/
theorem mainLoad_simulates {b : Build} (h : ThreadsOk s) (hpc : s.main.pc = .idle)
    (hr : (s.workers 0).mOutput.reader ≠ .idle) : ((s.loadStep 0 id).abs = s.abs ∧ (s.loadStep 0 id).rank < s.rank) ∨
      (s.abs.step b (.call .loadResults) = some (s.loadStep 0 id).abs ∧ (s.loadStep 0 id).rank < s.rank) := by
  have hrank := loadResults_rank hr
  have habs := h.loadResults_simulates (h.reader_zero hr).2
  split at habs
  · have hpc' : s.abs.main.pc = .idle := (h.absPc_of_no_post (fun j _ => by simp [hpc])).trans hpc
    refine .inr ⟨?_, hrank⟩
    rw [habs]
    exact if_pos hpc'
  · exact .inl ⟨habs, hrank⟩

/-- After the last worker the main thread goes on. -/
theorem mainPosted_simulates {b : Build} {mk : ℕ → MainPc} {k : ℕ} (h : ThreadsOk s) (hmk : mk = .posting ∨ mk = .stopping)
    (hk : ¬ k < s.main.mWorkersSize) (hpc : s.main.pc = mk k)
    (hs : s.own.mainStep.map (fun P => { s with main := P.main }) = some s') : s.abs.step b .main = some s'.abs := by
  have hpc' : s.abs.main.pc = mk k := by
    refine (h.absPc_of_no_post (fun j hj => ?_)).trans hpc
    have hne : k ≠ j := fun he => hk (he ▸ hj)
    rcases hmk with rfl | rfl <;> simp [hpc, hne]
  obtain ⟨P, hP, rfl⟩ := Option.map_eq_some_iff.1 hs
  rcases hmk with rfl | rfl
  all_goals
    simp only [Pool.mainStep, Threads.own, hpc, hk, if_false] at hP
    cases hP
    unfold Pool.step Pool.mainStep
    simp only [hpc']
    exact if_neg hk

/-- **A join** is one of the pool's. -/
theorem mainJoin_simulates {b : Build} {k : ℕ} (h : ThreadsOk s) (hpc : s.main.pc = .joining k)
    (hs : s.own.mainStep.map (fun P => { s with main := P.main }) = some s') : s.abs.step b .main = some s'.abs := by
  have hpc' : s.abs.main.pc = .joining k := (h.absPc_of_no_post (fun j _ => by simp [hpc])).trans hpc
  obtain ⟨P, hP, rfl⟩ := Option.map_eq_some_iff.1 hs
  unfold Pool.mainStep at hP
  unfold Pool.step Pool.mainStep
  simp only [hpc']
  by_cases hk : k < s.main.mWorkersSize
  · by_cases hw : (s.workers k).pc = .stopped
    · simp only [Threads.own, hpc, hk, if_true, WorkerThread.own, hw] at hP
      cases hP
      have hstopped : (s.abs.workers k).pc = .stopped := by
        change (s.workers k).absPc _ _ = _
        unfold WorkerThread.absPc
        rw [hw]
      rw [if_pos hstopped]
      exact if_pos hk
    · simp only [Threads.own, hpc, hk, if_true, WorkerThread.own, hw, if_false] at hP
      cases hP
  · simp only [Threads.own, hpc, hk, if_false] at hP
    cases hP
    exact if_neg hk

/-- **A step of the main thread** is one of the pool's, or none. -/
theorem main_simulates {b : Build} (h : ThreadsOk s) (hs : s.mainStep = some s') :
    (s'.abs = s.abs ∧ s'.rank < s.rank) ∨ s.abs.step b .main = some s'.abs ∨
      (s.abs.step b (.call .loadResults) = some s'.abs ∧ s'.rank < s.rank) := by
  unfold Threads.mainStep at hs
  cases hpc : s.main.pc with
  | idle =>
    simp only [hpc] at hs
    split at hs
    · cases hs
    · rename_i hr
      rw [← Option.some.inj hs]
      exact (h.mainLoad_simulates hpc hr).imp_right .inr
  | posting k =>
    simp only [hpc] at hs
    split at hs
    · rename_i hk
      have hsim := h.mainPost_simulates (f := fun e => { e with kJob := true }) (hk.trans_le h.size) (.inl rfl) hpc
        Events.ofBits_or_kJob hs
      refine hsim.imp_right (fun hpost => .inl ?_)
      have hpc' : s.abs.main.pc = .posting k := hpost.1
      rw [hpost.2]
      unfold Pool.step Pool.mainStep
      simp only [hpc']
      exact if_pos hk
    · rename_i hk
      exact .inr (.inl (h.mainPosted_simulates (.inl rfl) hk hpc hs))
  | stopping k =>
    simp only [hpc] at hs
    split at hs
    · rename_i hk
      have hsim := h.mainPost_simulates (f := fun e => { e with kStop := true }) (hk.trans_le h.size) (.inr rfl) hpc
        Events.ofBits_or_kStop hs
      refine hsim.imp_right (fun hpost => .inl ?_)
      have hpc' : s.abs.main.pc = .stopping k := hpost.1
      rw [hpost.2]
      unfold Pool.step Pool.mainStep
      simp only [hpc']
      exact if_pos hk
    · rename_i hk
      exact .inr (.inl (h.mainPosted_simulates (.inr rfl) hk hpc hs))
  | joining k =>
    simp only [hpc] at hs
    exact .inr (.inl (h.mainJoin_simulates hpc hs))

/-! ### The calls -/

theorem abs_new (w n : ℕ) (loaded posted : Bool) : (WorkerThread.new w n).abs loaded posted = Worker.new w n := by
  unfold WorkerThread.abs WorkerThread.new
  dsimp only
  rw [Tx.output_init, Events.init, Events.ofBits_zero]
  rfl

theorem call_withWorkers (P : Pool) (workers : ℕ → Worker) {c : Call} (hs : c ≠ .start) (hl : c ≠ .loadResults) :
    { P with workers := workers }.call c = { P.call c with workers := workers } := by
  have hcommit : ∀ P : Pool, { P with workers := workers }.commit = { P.commit with workers := workers } := by
    intro P
    grind [Pool.commit, Pool.renewQueue, Pool.setJob]
  cases c with
  | setThreads threads => rfl
  | start => exact absurd rfl hs
  | stop => grind [Pool.call, Pool.stop]
  | pushItem str => grind [Pool.call, Pool.pushItem]
  | setQuery query =>
    have hwith : { P with workers := workers }.withQuery (Query.parse query) =
        { P.withQuery (Query.parse query) with workers := workers } := by
      unfold Pool.withQuery
      split <;> rfl
    change { P with workers := workers }.setQuery query = { P.setQuery query with workers := workers }
    unfold Pool.setQuery
    dsimp only
    split
    · rfl
    · rw [hwith, hcommit]
  | commit => exact hcommit P
  | loadResults => exact absurd rfl hl

theorem call_simulates {b : Build} (h : ThreadsOk s) (hb : s.busy = false) (c : Call) :
    (c = .loadResults ∧ (s.call c).abs = s.abs) ∨ s.abs.step b (.call c) = some (s.call c).abs := by
  obtain ⟨hpc, hr⟩ := not_busy hb
  have hidle : ∀ k, (s.workers k).mEvents.posters 0 = .idle := h.no_poster (fun _ _ => by rw [hpc]; exact ⟨nofun, nofun⟩)
  have hpc' : s.abs.main.pc = .idle := by
    change s.absPc = _
    unfold Threads.absPc
    rw [hpc]
  have hcall : s.abs.step b (.call c) = some (s.abs.call c) := if_pos hpc'
  -- Nobody posts to a worker, so that the main thread is where it is.
  have habsPc : ∀ m : Main, { s with main := m }.absPc = m.pc := by
    intro m
    unfold Threads.absPc Threads.mainPosted
    cases m.pc <;> simp [hidle]
  have hown : s.abs = { s.own with workers := s.absWorker } := pool_ext (by
    change { s.main with pc := s.absPc } = s.main
    rw [habsPc s.main]) (fun _ => rfl) rfl
  have hset : c ≠ .start → c ≠ .loadResults →
      s.abs.call c = Threads.abs { s with main := (s.own.call c).main, queues := (s.own.call c).queues } := by
    intro hs hl
    rw [hown, call_withWorkers s.own s.absWorker hs hl]
    refine pool_ext ?_ (fun _ => rfl) rfl
    change (s.own.call c).main = { (s.own.call c).main with pc := Threads.absPc { s with main := (s.own.call c).main } }
    rw [habsPc]
  rw [hcall]
  cases c with
  | start =>
    right
    change some s.abs.start = some s.start.abs
    unfold Pool.start Threads.start
    have hrun : s.abs.main.mRunning = s.main.mRunning := rfl
    rw [hrun]
    split
    · rfl
    · set t : Threads := { s with main := { s.main with mRunning := true, mWorkersSize := s.main.mThreads }
                                  workers := fun w => WorkerThread.new w s.main.mThreads } with ht
      have hpct : t.absPc = s.absPc := by
        have htm : t.main.pc = s.main.pc := rfl
        unfold Threads.absPc
        rw [htm, hpc]
      refine congrArg some (pool_ext ?_ (fun w => (abs_new w _ _ _).symm) rfl)
      change _ = { t.main with pc := t.absPc }
      rw [hpct]
      rfl
  | loadResults =>
    change _ ∧ s.loadResults.abs = s.abs ∨ some s.abs.loadResults = some s.loadResults.abs
    by_cases hn : s.main.mWorkersSize = 0
    · have he : s.loadResults = s := if_pos hn
      exact .inl ⟨rfl, by rw [he]⟩
    · have he : s.loadResults = s.loadStep 0 id := if_neg hn
      rw [he]
      have habs := h.loadResults_simulates (Nat.pos_of_ne_zero hn)
      split at habs
      · exact .inr (by rw [habs])
      · exact .inl ⟨rfl, habs⟩
  | _ => exact .inr (congrArg some (hset nofun nofun))

end ThreadsOk

end Fzx
