import Fzx.TxAtomic
import Fzx.EventsAtomic
/-!
# Threads — the pool down to its atomic operations

`Pool` takes an event word and an output for what they are meant to be.  Here a worker has the real ones: `wait` and
`post` go through the state word, the mutex and the condition variable step by step (`Events`), and `commit` and `load`
through the exchanges of the three buffers (`Tx`).  A step is one atomic operation of one thread, with the thread's own
work up to the next one, and a condition variable may wake up for no reason.

What a thread does on its own is what it does in `Pool`, on what it sees (`own`).  `abs` says which state of the pool a
state is: a call of `wait`, `post`, `commit` or `load` happens at one of its atomic operations.

Worker 0 posts to nobody, so that the main thread is the poster 0 of every worker; and nobody merges from worker 0, so
that the main thread is the reader of its output.
-/
namespace Fzx

open Lib

structure WorkerThread where
  pc : WorkerPc
  mEvents : Events.Sys
  mOutput : Tx.Sys Results
  job : Job
  lastItemsTick : ℕ
  lastQueryTick : ℕ
  mergeState : MergeState
  published : Bool

namespace WorkerThread

def new (mIndex workersSize : ℕ) : WorkerThread :=
  { pc := .wait, mEvents := Events.init, mOutput := Tx.Sys.init {}, job := {}, lastItemsTick := 0, lastQueryTick := 0,
    mergeState := MergeState.new mIndex workersSize, published := false }

/-- What the thread has of its own, and what its reader holds. -/
def own (T : WorkerThread) : Worker :=
  { pc := T.pc, mEvents := {}, mOutput := { writeBuffer := T.mOutput.tx.mBuffers T.mOutput.tx.mWrite,
                                            readBuffer := T.mOutput.tx.readBuffer },
    job := T.job, lastItemsTick := T.lastItemsTick, lastQueryTick := T.lastQueryTick, mergeState := T.mergeState,
    published := T.published }

/-- What the thread did on its own. -/
def put (T : WorkerThread) (W : Worker) : WorkerThread :=
  { pc := W.pc, mEvents := T.mEvents, mOutput := T.mOutput.write W.out, job := W.job, lastItemsTick := W.lastItemsTick,
    lastQueryTick := W.lastQueryTick, mergeState := W.mergeState, published := W.published }

def goto (T : WorkerThread) (pc : WorkerPc) : WorkerThread := { T with pc }

/-- The next step of `events.wait()`. -/
def waitStep (T : WorkerThread) : Option WorkerThread :=
  match T.mEvents.consumer with
  | .idle => some { T with mEvents := { T.mEvents with consumer := .lock } }
  | .unlock ret => (Events.consumerStep T.mEvents).map (fun E => { T with mEvents := E, pc := .woken (Events.ofBits ret) })
  | _ => (Events.consumerStep T.mEvents).map (fun E => { T with mEvents := E })

/-- `events.get()` -/
def getStep (T : WorkerThread) : Option WorkerThread :=
  (Events.get T.mEvents).map (fun E => { T with mEvents := E, pc := .got (Events.ofBits T.mEvents.mState) })

/-- The next step of `output.commit()`. -/
def commitStep (T : WorkerThread) : WorkerThread :=
  let O := Tx.writerStep T.mOutput
  { T with published := true, mOutput := O, pc := if O.writer = .idle then .notify else T.pc }

end WorkerThread

structure Threads where
  main : Main
  workers : ℕ → WorkerThread
  queues : ℕ → ItemQueue

namespace Threads

def init (hardwareConcurrency : ℕ) : Threads :=
  { main := { mThreads := clampThreads hardwareConcurrency }, workers := fun w => WorkerThread.new w 0,
    queues := fun _ => {} }

def setWorker (s : Threads) (w : ℕ) (T : WorkerThread) : Threads :=
  { s with workers := Function.update s.workers w T }

/-- What the threads see between two of those operations. -/
def own (s : Threads) : Pool := { main := s.main, workers := fun w => (s.workers w).own, queues := s.queues }

def goto (s : Threads) (w : ℕ) (pc : WorkerPc) : Threads := s.setWorker w ((s.workers w).goto pc)

def mainGoto (s : Threads) (pc : MainPc) : Threads := { s with main := { s.main with pc } }

/-- The next step of `mWorkers[w]->mOutput.load()`; at its end the caller goes on. -/
def loadStep (s : Threads) (w : ℕ) (goOn : Threads → Threads) : Threads :=
  let O := Tx.readerStep (s.workers w).mOutput
  let s := s.setWorker w { s.workers w with mOutput := O }
  if O.reader = .idle then goOn s else s

/-- The next step of `mWorkers[w]->mEvents.post(flags)` by the poster `p`; at its end the caller goes on. -/
def postStep (s : Threads) (w p : ℕ) (flags : BitVec 32) (goOn : Threads → Threads) : Option Threads :=
  let E := (s.workers w).mEvents
  (if E.posters p = .idle then Events.post E p flags else Events.posterStep E p).map (fun E =>
    let s := s.setWorker w { s.workers w with mEvents := E }
    if E.posters p = .idle then goOn s else s)

/-! ### The main thread -/

/-- In a call, `loadResults` included. -/
def busy (s : Threads) : Bool := s.main.pc ≠ .idle || (s.workers 0).mOutput.reader ≠ .idle

def start (s : Threads) : Threads :=
  if s.main.mRunning then s
  else { s with main := { s.main with mRunning := true, mWorkersSize := s.main.mThreads }
                workers := fun w => WorkerThread.new w s.main.mThreads }

def loadResults (s : Threads) : Threads := if s.main.mWorkersSize = 0 then s else s.loadStep 0 id

def call (s : Threads) (c : Call) : Threads :=
  match c with
  | .start => s.start
  | .loadResults => s.loadResults
  | c => { s with main := (s.own.call c).main, queues := (s.own.call c).queues }

/-- The next step of the call the main thread is in. -/
def mainStep (s : Threads) : Option Threads :=
  match s.main.pc with
  | .idle => if (s.workers 0).mOutput.reader = .idle then none else some (s.loadStep 0 id)
  | .posting k =>
    if k < s.main.mWorkersSize then s.postStep k 0 Worker.kJob (fun s => s.mainGoto (.posting (k + 1)))
    else s.own.mainStep.map (fun P => { s with main := P.main })
  | .stopping k =>
    if k < s.main.mWorkersSize then s.postStep k 0 Worker.kStop (fun s => s.mainGoto (.stopping (k + 1)))
    else s.own.mainStep.map (fun P => { s with main := P.main })
  | .joining _ => s.own.mainStep.map (fun P => { s with main := P.main })

/-! ### A worker -/

/-- The worker's own work. -/
def ownStep (b : Build) (s : Threads) (w : ℕ) : Option Threads :=
  (s.own.workerStep b w {}).map (fun P =>
    { s with workers := Function.update s.workers w ((s.workers w).put (P.workers w)), queues := P.queues })

/-- The next step of worker `w`; `none` when it is blocked or asleep, has stopped, or fails an assertion. -/
def workerStep (b : Build) (s : Threads) (w : ℕ) : Option Threads :=
  let T := s.workers w
  match T.pc with
  | .wait => T.waitStep.map (s.setWorker w)
  | .get => T.getStep.map (s.setWorker w)
  | .merge i =>
    if i < T.mergeState.size ∧ T.mergeState.contains i = false then
      some (s.loadStep (T.mergeState.child i) (fun s => s.goto w (.merging i)))
    else s.ownStep b w
  | .publish => if T.published ∧ T.mOutput.writer = .idle then s.ownStep b w else some (s.setWorker w T.commitStep)
  | .notify => if w = 0 then s.ownStep b w else s.postStep (parent w) w Worker.kMerge (fun s => s.goto w .wait)
  | _ => s.ownStep b w

/-! ### Runs -/

/-- `wake` is a condition variable that wakes up for no reason. -/
inductive Action where
  | call (c : Call)
  | main
  | worker (w : ℕ)
  | wake (w : ℕ)

def step (b : Build) (s : Threads) : Action → Option Threads
  | .call c => if s.busy then none else some (s.call c)
  | .main => s.mainStep
  | .worker w => if w < s.main.mWorkersSize then s.workerStep b w else none
  | .wake w =>
    if (s.workers w).mEvents.consumer = .asleep then
      some (s.setWorker w { s.workers w with mEvents := { (s.workers w).mEvents with consumer := .relock } })
    else none

end Threads

/-! ## The state of the pool -/

/-- Where the pool's worker is, if the load it waits for has what it will return (`loaded`) or the post it waits for has
set its bit (`posted`). -/
def WorkerThread.absPc (T : WorkerThread) (loaded posted : Bool) : WorkerPc :=
  match T.pc with
  | .wait => (T.mEvents.consumer.taken.map WorkerPc.woken).getD .wait
  | .merge i => if loaded then .merging i else .merge i
  | .publish => if T.mOutput.committed then .notify else .publish
  | .notify => if posted then .wait else .notify
  | pc => pc

def WorkerThread.abs (T : WorkerThread) (loaded posted : Bool) : Worker :=
  { pc := T.absPc loaded posted
    mEvents := Events.ofBits T.mEvents.mState
    mOutput := T.mOutput.output
    job := T.job
    lastItemsTick := T.lastItemsTick
    lastQueryTick := T.lastQueryTick
    mergeState := T.mergeState
    published := T.published && !T.mOutput.counted }

namespace Threads

/-- The child that worker `w` loads from. -/
def source (s : Threads) (w : ℕ) : Option ℕ :=
  match (s.workers w).pc with
  | .merge i => if i < (s.workers w).mergeState.size then some ((s.workers w).mergeState.child i) else none
  | _ => none

def loaded (s : Threads) (w : ℕ) : Bool := (s.source w).any (fun c => (s.workers c).mOutput.loaded)

/-- Worker `w` is in a post to its parent, and the bit is set. -/
def posted (s : Threads) (w : ℕ) : Bool := w ≠ 0 && (s.workers (parent w)).mEvents.posters w ≠ .idle

def absWorker (s : Threads) (w : ℕ) : Worker := (s.workers w).abs (s.loaded w) (s.posted w)

/-- The main thread is in a post to worker `k`, and the bit is set. -/
def mainPosted (s : Threads) (k : ℕ) : Bool := (s.workers k).mEvents.posters 0 ≠ .idle

def absPc (s : Threads) : MainPc :=
  match s.main.pc with
  | .posting k => if s.mainPosted k then .posting (k + 1) else .posting k
  | .stopping k => if s.mainPosted k then .stopping (k + 1) else .stopping k
  | pc => pc

def abs (s : Threads) : Pool :=
  { main := { s.main with pc := s.absPc }, workers := s.absWorker, queues := s.queues }

end Threads
end Fzx
