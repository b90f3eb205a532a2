import Fzx.Lib.Run
import Fzx.Lib.Chunks
import Fzx.MergeTree
import Fzx.Query
/-!
# Pool — fzx.cpp and worker.cpp

The main thread and its workers.  A step is one access to what the threads share (the job under its mutex, a chunk
counter, an event word, an output buffer) with the thread's own work up to the next one; `step` makes one step of one
thread and a schedule interleaves them freely.

What the threads share is abstracted to what they see of it.  A `Shared` value is a `shared_ptr`, equal when the
addresses are.  An `Output` is a triple buffer: `load` gets what the last `commit` put there, and the buffer a commit
gets back to write to holds anything (`back`).  An `Events` word is read and cleared in one step, and `wait` waits for a
bit.  `Items` is the list of the strings pushed.

The history is what the claims are about and no step reads it: the jobs committed, in order, and for each chunk counter
the workers that took the chunks.
-/
namespace Fzx

open Lib

def kChunkSize : ℕ := 0x4000

structure Shared (α : Type) where
  addr : ℕ
  val : α
deriving DecidableEq, Repr

/-! ## What the threads share -/

structure ItemQueue where
  mIndex : ℕ := 0
  takers : List ℕ := []

/-- Reserve `n` items, for worker `w`. -/
def ItemQueue.take (q : ItemQueue) (n w : ℕ) : ℕ × ItemQueue :=
  (q.mIndex, { mIndex := q.mIndex + n, takers := q.takers ++ [w] })

structure Job where
  mItems : List Bytes := []
  mQuery : Option (Shared Query) := none
  mQueue : Option ℕ := none
  mQueryTick : ℕ := 0

structure Results where
  mItems : List MatchedItem := []
  mQuery : Option (Shared Query) := none
  mItemsTick : ℕ := 0
  mQueryTick : ℕ := 0

def Results.newerThan (a b : Results) : Bool := a.mItemsTick > b.mItemsTick || a.mQueryTick > b.mQueryTick

def Results.sameTick (a b : Results) : Bool := a.mItemsTick == b.mItemsTick && a.mQueryTick == b.mQueryTick

structure Output where
  writeBuffer : Results := {}
  committed : Results := {}
  readBuffer : Results := {}

def Output.commit (o : Output) (back : Results) : Output := { o with committed := o.writeBuffer, writeBuffer := back }

def Output.load (o : Output) : Output := { o with readBuffer := o.committed }

/-- The bits of an event word. -/
structure EventSet where
  kStop : Bool := false
  kJob : Bool := false
  kMerge : Bool := false
deriving DecidableEq

def EventSet.any (e : EventSet) : Bool := e.kStop || e.kJob || e.kMerge

/-! ## Worker -/

/-- Where a worker is in `run`; `ev` is what it just got. -/
inductive WorkerPc where
  | wait
  | woken (ev : EventSet)
  | take
  | chunk (start stop : ℕ)
  | get
  | got (ev : EventSet)
  | merge (i : ℕ)
  | merging (i : ℕ)
  | publish
  | notify
  | stopped
deriving DecidableEq

structure Worker where
  pc : WorkerPc
  mEvents : EventSet
  mOutput : Output
  job : Job
  lastItemsTick : ℕ
  lastQueryTick : ℕ
  mergeState : MergeState
  published : Bool

namespace Worker

def new (mIndex workersSize : ℕ) : Worker :=
  { pc := .wait, mEvents := {}, mOutput := {}, job := {}, lastItemsTick := 0, lastQueryTick := 0,
    mergeState := MergeState.new mIndex workersSize, published := false }

def goto (W : Worker) (pc : WorkerPc) : Worker := { W with pc }

/-- The output's write buffer. -/
def out (W : Worker) : Results := W.mOutput.writeBuffer

def setItems (W : Worker) (items : List MatchedItem) : Worker :=
  { W with mOutput := { W.mOutput with writeBuffer := { W.out with mItems := items } } }

def loadJob (W : Worker) (mJob : Job) : Worker × Bool :=
  let newItems := decide (W.lastItemsTick < mJob.mItems.length)
  let newQuery := decide (W.lastQueryTick < mJob.mQueryTick)
  ({ W with job := mJob,
            lastItemsTick := if newItems then mJob.mItems.length else W.lastItemsTick,
            lastQueryTick := if newQuery then mJob.mQueryTick else W.lastQueryTick },
   newItems || newQuery)

/-- From the label `match` to the loop over the chunks. -/
def startMatch (W : Worker) : Worker :=
  { W with
    published := false
    mergeState := W.mergeState.reset
    mOutput := { W.mOutput with
      writeBuffer := { mItems := [], mQuery := W.job.mQuery, mItemsTick := W.job.mItems.length,
                       mQueryTick := W.job.mQueryTick } }
    pc := match W.job.mQuery with
      | none => .publish
      | some q => if q.val.empty then .publish else .take }

def enterMerge (W : Worker) : Worker := W.goto (if W.mergeState.done then .publish else .merge 0)

/-- What a worker does with the events it got, before it goes on with what it was doing. -/
def react (W : Worker) (mJob : Job) (ev : EventSet) (goOn : Worker → Worker) : Worker :=
  if ev.kStop then W.goto .stopped
  else if ev.kJob then
    let (W, res) := W.loadJob mJob
    if res then W.startMatch else goOn W
  else goOn W

end Worker

/-- Match one item and calculate its score. -/
def matchItem (b : Build) (items : List Bytes) (q : Query) (out : List MatchedItem) (i : ℕ) :
    Option (List MatchedItem) :=
  let item := items.getD i []
  if q.match b item then (MatchedItem.new (UInt32.ofNat i) (q.score b item)).map (fun m => out ++ [m]) else some out

def matchItems (b : Build) (items : List Bytes) (q : Query) (is : List ℕ) (out : List MatchedItem) :
    Option (List MatchedItem) := is.foldlM (matchItem b items q) out

/-- `std::sort`; items that compare equal are equal, so any sort gives this list. -/
def sortItems (l : List MatchedItem) : List MatchedItem := l.insertionSort (fun a b => ¬ b < a)

/-! ## Fzx -/

/-- Where the main thread is: `posting k` in `commit`, `stopping k` and `joining k` in `stop`. -/
inductive MainPc where
  | idle
  | posting (k : ℕ)
  | stopping (k : ℕ)
  | joining (k : ℕ)
deriving DecidableEq

/-- The members of `Fzx` that the main thread alone writes; the workers read `mJob`. -/
structure Main where
  mItems : List Bytes := []
  mQuery : Option (Shared Query) := none
  mQueue : Option ℕ := none
  mThreads : ℕ
  mRunning : Bool := false
  mJob : Job := {}
  mWorkersSize : ℕ := 0
  nextQuery : ℕ := 0
  nextQueue : ℕ := 0
  pc : MainPc := .idle
  jobs : List Job := []

structure Pool where
  main : Main
  workers : ℕ → Worker
  queues : ℕ → ItemQueue

/-- The calls of the main thread. -/
inductive Call where
  | setThreads (threads : ℕ)
  | start
  | stop
  | pushItem (s : Bytes)
  | setQuery (query : Bytes)
  | commit
  | loadResults

def clampThreads (threads : ℕ) : ℕ := max 1 (min threads kMaxThreads)

namespace Pool

def init (hardwareConcurrency : ℕ) : Pool :=
  { main := { mThreads := clampThreads hardwareConcurrency }, workers := fun w => Worker.new w 0, queues := fun _ => {} }

def setWorker (s : Pool) (w : ℕ) (W : Worker) : Pool := { s with workers := Function.update s.workers w W }

/-! ### The main thread -/

/-- `mQueue = std::make_shared<ItemQueue>()`, or null when there is no query. -/
def renewQueue (s : Pool) : Pool :=
  if s.main.mQuery.isSome then
    { s with main := { s.main with mQueue := some s.main.nextQueue, nextQueue := s.main.nextQueue + 1 },
             queues := Function.update s.queues s.main.nextQueue {} }
  else { s with main := { s.main with mQueue := none } }

/-- The job after the critical section of `commit`. -/
def nextJob (m : Main) (queryChanged itemsChanged queueChanged : Bool) : Job :=
  { mItems := if itemsChanged then m.mItems else m.mJob.mItems
    mQueue := if queueChanged then m.mQueue else m.mJob.mQueue
    mQueryTick := if queryChanged then m.mJob.mQueryTick + 1 else m.mJob.mQueryTick
    mQuery := if queryChanged then m.mQuery else m.mJob.mQuery }

def setJob (s : Pool) (job : Job) : Pool :=
  { s with main := { s.main with mJob := job, jobs := s.main.jobs ++ [job], pc := .posting 0 } }

def commit (s : Pool) : Pool :=
  let queryChanged := decide (s.main.mJob.mQuery.map Shared.addr ≠ s.main.mQuery.map Shared.addr)
  let itemsChanged := decide (s.main.mJob.mItems.length ≠ s.main.mItems.length)
  if !queryChanged && !itemsChanged then s
  else
    let queueChanged := queryChanged || (itemsChanged && s.main.mQuery.isSome)
    let s := if queueChanged then s.renewQueue else s
    s.setJob (nextJob s.main queryChanged itemsChanged queueChanged)

/-- `mQuery = std::make_shared<Query>(std::move(q))`, or a reset. -/
def withQuery (s : Pool) (q : Query) : Pool :=
  if !q.empty then
    { s with main := { s.main with mQuery := some { addr := s.main.nextQuery, val := q }
                                   nextQuery := s.main.nextQuery + 1 } }
  else { s with main := { s.main with mQuery := none } }

def setQuery (s : Pool) (query : Bytes) : Pool :=
  let q := Query.parse query
  if (q.empty && s.main.mQuery.isNone) || (!q.empty && s.main.mQuery.any (fun p => p.val = q)) then s
  else (s.withQuery q).commit

def setThreads (s : Pool) (threads : ℕ) : Pool :=
  { s with main := { s.main with mThreads := clampThreads threads } }

def start (s : Pool) : Pool :=
  if s.main.mRunning then s
  else { s with main := { s.main with mRunning := true, mWorkersSize := s.main.mThreads }
                workers := fun w => Worker.new w s.main.mThreads }

def stop (s : Pool) : Pool :=
  if !s.main.mRunning then s else { s with main := { s.main with mRunning := false, pc := .stopping 0 } }

def pushItem (s : Pool) (str : Bytes) : Pool :=
  if str.isEmpty then s else { s with main := { s.main with mItems := s.main.mItems ++ [str] } }

def loadResults (s : Pool) : Pool :=
  if s.main.mWorkersSize = 0 then s
  else s.setWorker 0 { s.workers 0 with mOutput := (s.workers 0).mOutput.load }

def call (s : Pool) : Call → Pool
  | .setThreads threads => s.setThreads threads
  | .start => s.start
  | .stop => s.stop
  | .pushItem str => s.pushItem str
  | .setQuery query => s.setQuery query
  | .commit => s.commit
  | .loadResults => s.loadResults

/-- The next step of the call the main thread is in. -/
def mainStep (s : Pool) : Option Pool :=
  match s.main.pc with
  | .idle => none
  | .posting k =>
    if k < s.main.mWorkersSize then
      let W := s.workers k
      some { s.setWorker k { W with mEvents := { W.mEvents with kJob := true } } with
             main := { s.main with pc := .posting (k + 1) } }
    else some { s with main := { s.main with pc := .idle } }
  | .stopping k =>
    if k < s.main.mWorkersSize then
      let W := s.workers k
      some { s.setWorker k { W with mEvents := { W.mEvents with kStop := true } } with
             main := { s.main with pc := .stopping (k + 1) } }
    else some { s with main := { s.main with pc := .joining 0 } }
  | .joining k =>
    if k < s.main.mWorkersSize then
      if (s.workers k).pc = .stopped then some { s with main := { s.main with pc := .joining (k + 1) } } else none
    else some { s with main := { s.main with pc := .idle, mWorkersSize := 0 } }

/-! ### A worker -/

/-- Take a chunk, or end the loop over the chunks and sort. -/
def takeStep (s : Pool) (w queue : ℕ) : Pool :=
  let W := s.workers w
  let (taken, q) := (s.queues queue).take kChunkSize w
  let start := min taken W.job.mItems.length
  let stop := min (start + kChunkSize) W.job.mItems.length
  { s with queues := Function.update s.queues queue q }.setWorker w
    (if start ≥ stop then (W.setItems (sortItems W.out.mItems)).enterMerge else W.goto (.chunk start stop))

/-- Merge what was loaded from a child, unless it is of another job. -/
def mergeChild (W : Worker) (i : ℕ) (cres : Results) : Worker :=
  if cres.newerThan W.out then W.goto .wait
  else if !cres.sameTick W.out then W.goto (.merge (i + 1))
  else
    let items := if !cres.mItems.isEmpty then merge2 W.out.mItems cres.mItems else W.out.mItems
    { W.setItems items with mergeState := W.mergeState.set i, pc := .merge (i + 1) }

/-- The next step of worker `w`; `none` when it waits, has stopped, or fails an assertion. -/
def workerStep (b : Build) (s : Pool) (w : ℕ) (back : Results) : Option Pool :=
  let W := s.workers w
  match W.pc with
  | .wait => if W.mEvents.any then some (s.setWorker w { W with mEvents := {}, pc := .woken W.mEvents }) else none
  | .woken ev => some (s.setWorker w (W.react s.main.mJob ev Worker.enterMerge))
  | .take => W.job.mQueue.map (s.takeStep w)
  | .chunk start stop =>
    W.job.mQuery.bind (fun q =>
      (matchItems b W.job.mItems q.val (List.range' start (stop - start)) W.out.mItems).map (fun items =>
        s.setWorker w ((W.setItems items).goto .get)))
  | .get => some (s.setWorker w { W with mEvents := {}, pc := .got W.mEvents })
  | .got ev => some (s.setWorker w (W.react s.main.mJob ev (fun W => W.goto .take)))
  | .merge i =>
    if i < W.mergeState.size then
      if W.mergeState.contains i then some (s.setWorker w (W.goto (.merge (i + 1))))
      else
        let child := s.workers (W.mergeState.child i)
        some ((s.setWorker (W.mergeState.child i) { child with mOutput := child.mOutput.load }).setWorker w
          (W.goto (.merging i)))
    else some (s.setWorker w (W.goto (if W.mergeState.done then .publish else .wait)))
  | .merging i => some (s.setWorker w (mergeChild W i (s.workers (W.mergeState.child i)).mOutput.readBuffer))
  | .publish =>
    if W.published then some (s.setWorker w (W.goto .wait))
    else some (s.setWorker w { W with published := true, mOutput := W.mOutput.commit back, pc := .notify })
  | .notify =>
    let s := s.setWorker w (W.goto .wait)
    if w = 0 then some s
    else
      let P := s.workers (parent w)
      some (s.setWorker (parent w) { P with mEvents := { P.mEvents with kMerge := true } })
  | .stopped => none

/-! ### Runs -/

inductive Action where
  | call (c : Call)
  | main
  | worker (w : ℕ) (back : Results)

def step (b : Build) (s : Pool) : Action → Option Pool
  | .call c => if s.main.pc = .idle then some (s.call c) else none
  | .main => s.mainStep
  | .worker w back => if w < s.main.mWorkersSize then s.workerStep b w back else none

end Pool
end Fzx
