import Fzx.EventFd
import Fzx.TermApp
import Fzx.ThreadsRest
/-!
# App — tui/main.cpp

The whole program: the main loop with its signals and `pselect`, the pipe that wakes it up, and the threads of the search.
The main thread goes through a list of what is left of the round it is in (`todo`), one task at a step; in a call of `Fzx`
or in `consume` it takes the steps of that call.  Worker 0 calls back through `notify`.

What comes from outside is the environment's: which of the terminal and the input are ready, the keys and the bytes read,
the signals, the size of the terminal.  There is memory for everything, and a write to the pipe succeeds, as the pipe never
holds more than two bytes.  An item that is too big is thrown for; an exception that leaves the handler of `processInput`
ends the program there (`aborted`).  After it has printed its result `main` destroys the search, which stops the workers.
`read` is the history of the input, which no step looks at.
-/
namespace Fzx

open Lib

deriving instance DecidableEq for Call

/-- What the main thread has to do. -/
inductive Task where
  | signals
  | select
  | processTTY
  | processInput
  | consume
  | call (c : Call)
  | loaded
  | redraw
deriving DecidableEq

structure App where
  threads : Threads
  mEventFd : EventFd.Sys
  app : TermApp
  todo : List Task
  gQuitSignal : Bool
  gResizeSignal : Bool
  winsize : ℕ × ℕ
  read : Bytes
  printed : Option (List Bytes)
  aborted : Bool

namespace App

/-- After `start`, before the first round. -/
def init (hardwareConcurrency : ℕ) (winsize : ℕ × ℕ) : App :=
  { threads := ((Threads.init hardwareConcurrency).call (.setThreads hardwareConcurrency)).call .start
    mEventFd := EventFd.init
    app := { mTTY := { mWidth := winsize.1, mHeight := winsize.2 } }
    todo := [], gQuitSignal := false, gResizeSignal := false, winsize, read := [], printed := none, aborted := false }

/-- The calls of `Fzx` that read. -/
def fzx (s : App) : Pool := s.threads.own

/-! ### The main thread -/

/-- The result of the last `loadResults`. -/
def loadedNew (s : App) : Bool :=
  if s.threads.main.mWorkersSize = 0 then false
  else ((s.threads.workers 0).mOutput.loads.getLast?.map Tx.Load.ret).getD false

def processSignals (s : App) : App :=
  if s.gQuitSignal then { s with gQuitSignal := false, app := s.app.quit false, todo := [] }
  else if s.gResizeSignal then
    { s with gResizeSignal := false
             app := { s.app with mTTY := { s.app.mTTY with mWidth := s.winsize.1, mHeight := s.winsize.2 } }
             todo := .redraw :: s.todo }
  else s

/-- The end of the main loop, with what is printed then. -/
def leave (s : App) : Option App :=
  match s.app.mStatus with
  | .exitSuccess =>
    (if s.app.mSelection = ∅ then some [s.app.currentItem s.fzx] else s.app.printSelection s.fzx).map (fun lines =>
      { s with printed := some lines })
  | _ => some { s with printed := some [] }

/-- The next task; `none` for those that get something from outside. -/
def perform (b : Build) (s : App) : Task → Option App
  | .signals => some s.processSignals
  | .consume => (EventFd.step s.mEventFd .consume).map (fun E =>
      { s with mEventFd := E, todo := .call .loadResults :: .loaded :: s.todo })
  | .call c => (s.threads.step b (.call c)).map (fun T => { s with threads := T })
  | .loaded => some (if s.loadedNew then { s with todo := .redraw :: s.todo } else s)
  | .redraw => (s.app.redraw b s.fzx).map (fun t => { s with app := t })
  | .select | .processTTY | .processInput => none

/-- The main thread is in no call. -/
def free (s : App) : Bool := s.printed.isNone && s.mEventFd.consumer = .idle && !s.threads.busy

/-- `~TermApp`, of which `~Fzx` stops the workers. -/
def destroy (b : Build) (s : App) : Option App :=
  if s.threads.main.mRunning then (s.threads.step b (.call .stop)).map (fun T => { s with threads := T }) else none

def mainStep (b : Build) (s : App) : Option App :=
  if s.mEventFd.consumer ≠ .idle then (EventFd.consumerStep s.mEventFd).map (fun E => { s with mEventFd := E })
  else if s.threads.busy then (s.threads.step b .main).map (fun T => { s with threads := T })
  else if s.printed.isSome then s.destroy b
  else
    match s.todo with
    | [] => if s.app.mStatus = .running then some { s with todo := [.signals, .select] } else s.leave
    | task :: todo => { s with todo }.perform b task

/-- `pselect` returns, with what is ready. -/
def select (s : App) (tty input : Bool) : Option App :=
  match s.todo with
  | .select :: todo =>
    if s.free ∧ (input → s.app.mInput) ∧ (tty ∨ input ∨ 0 < s.mEventFd.pipe) then
      some { s with todo := (if tty then [.processTTY] else []) ++ (if input then [.processInput] else []) ++
        (if 0 < s.mEventFd.pipe then [.consume] else []) ++ todo }
    else none
  | _ => none

/-- A signal interrupts `pselect`. -/
def interrupt (s : App) : Option App :=
  match s.todo with
  | .select :: todo => if s.free then some { s with todo := .signals :: todo } else none
  | _ => none

/-- `processTTY`, with the keys there are. -/
def keys (s : App) (keys : List UInt8) : Option App :=
  match s.todo with
  | .processTTY :: todo =>
    if s.free then
      let out := TermApp.readKeys s.fzx keys s.app false
      some { s with
        app := out.app
        todo := (if out.ended then []
          else (if out.updateQuery then [.call (.setQuery out.app.mLine.mLine)] else []) ++ [.redraw]) ++ todo }
    else none
  | _ => none

/-- What a `read` into a buffer can get. -/
def Reads (size : ℕ) : TermApp.Reading → Bool
  | .chunk str => decide (str ≠ [] ∧ str.length ≤ size)
  | .eof | .error => true

def bytesOf : TermApp.Reading → Bytes
  | .chunk str => str
  | .eof | .error => []

/-- `processInput`, with what there is to read. -/
def input (s : App) (r : TermApp.Reading) : Option App :=
  match s.todo with
  | .processInput :: todo =>
    if s.free ∧ Reads s.app.mInputBuffer r then
      match s.app.processInput r with
      | some out => some { s with
          app := out.app
          todo := out.calls.map .call ++ (if out.draws then [.redraw] else []) ++ todo
          read := s.read ++ bytesOf r }
      | none => some { s with read := s.read ++ bytesOf r, aborted := true }
    else none
  | _ => none

/-! ### The workers -/

/-- Worker 0 is in the callback. -/
def inCallback (s : App) : Bool := (s.threads.workers 0).pc = .notify

/-- The next step of `mEventFd.notify()`; at its end the worker goes on. -/
def callbackStep (b : Build) (s : App) : Option App :=
  match s.mEventFd.notifiers 0 with
  | .idle => (EventFd.step s.mEventFd (.notify 0)).map (fun E => { s with mEventFd := E })
  | .write _ _ => (EventFd.step s.mEventFd (.write 0 .one)).map (fun E => { s with mEventFd := E })
  | .unlock _ _ =>
    (EventFd.step s.mEventFd (.notifier 0)).bind (fun E =>
      (s.threads.step b (.worker 0)).map (fun T => { s with threads := T, mEventFd := E }))
  | _ => (EventFd.step s.mEventFd (.notifier 0)).map (fun E => { s with mEventFd := E })

def workerStep (b : Build) (s : App) (w : ℕ) : Option App :=
  if w < s.threads.main.mWorkersSize ∧ w = 0 ∧ s.inCallback then s.callbackStep b
  else (s.threads.step b (.worker w)).map (fun T => { s with threads := T })

/-! ### Runs -/

inductive Action where
  | main
  | worker (w : ℕ)
  | wake (w : ℕ)
  | select (tty input : Bool)
  | interrupt
  | keys (keys : List UInt8)
  | input (r : TermApp.Reading)
  | quitSignal
  | resize (winsize : ℕ × ℕ)

def step (b : Build) (s : App) (a : Action) : Option App :=
  if s.aborted then none
  else
    match a with
    | .main => s.mainStep b
    | .worker w => s.workerStep b w
    | .wake w => (s.threads.step b (.wake w)).map (fun T => { s with threads := T })
    | .select tty input => s.select tty input
    | .interrupt => s.interrupt
    | .keys keys => s.keys keys
    | .input r => s.input r
    | .quitSignal => some { s with gQuitSignal := true }
    | .resize winsize => some { s with winsize, gResizeSignal := true }

end App
end Fzx
