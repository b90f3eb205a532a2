import Fzx.App
/-!
# AppStep — what a step of the program can do

`appMove_cases` lists the steps.  Those of the search are steps of `Threads` and those of the pipe steps of `EventFd`, so
that what holds of their runs holds in the program.
-/
namespace Fzx

open Lib

/-- The main thread is between two calls. -/
structure App.Free (s : App) : Prop where
  printed : s.printed = none
  consumer : s.mEventFd.consumer = .idle
  busy : s.threads.busy = false

theorem App.free_iff {s : App} : s.free = true ↔ s.Free := by
  unfold App.free
  rw [Bool.and_eq_true, Bool.and_eq_true, Option.isNone_iff_eq_none, decide_eq_true_eq, Bool.not_eq_true']
  exact ⟨fun h => ⟨h.1.1, h.1.2, h.2⟩, fun h => ⟨⟨h.printed, h.consumer⟩, h.busy⟩⟩

/-- The callback's own steps on the pipe. -/
inductive App.Callback (E : EventFd.Sys) : EventFd.Action → Prop where
  | call (h : E.notifiers 0 = .idle) : Callback E (.notify 0)
  | lock (h : E.notifiers 0 = .lock) : Callback E (.notifier 0)
  | exchange (h : E.notifiers 0 = .exchange) : Callback E (.notifier 0)
  | write {i pos : ℕ} (h : E.notifiers 0 = .write i pos) : Callback E (.write 0 .one)

/-- The tasks that `pselect` finds. -/
def App.ready (s : App) (tty input : Bool) : List Task :=
  (if tty then [.processTTY] else []) ++ (if input then [.processInput] else []) ++
    (if 0 < s.mEventFd.pipe then [.consume] else [])

/-- What is to be done after the keys. -/
def TermApp.KeysOut.todo (out : TermApp.KeysOut) : List Task :=
  if out.ended then []
  else (if out.updateQuery then [.call (.setQuery out.app.mLine.mLine)] else []) ++ [.redraw]

def TermApp.InputOut.todo (out : TermApp.InputOut) : List Task :=
  out.calls.map .call ++ if out.draws then [.redraw] else []

/-- The steps, with what they leave. -/
inductive AppMove (b : Build) (s : App) : App.Action → App → Prop where
  | worker {w : ℕ} {T : Threads} (hc : ¬ (w = 0 ∧ s.inCallback = true)) (hs : s.threads.step b (.worker w) = some T) :
      AppMove b s (.worker w) { s with threads := T }
  | wake {w : ℕ} {T : Threads} (hs : s.threads.step b (.wake w) = some T) : AppMove b s (.wake w) { s with threads := T }
  | main {T : Threads} (hc : s.mEventFd.consumer = .idle) (hb : s.threads.busy = true)
      (hs : s.threads.step b .main = some T) : AppMove b s .main { s with threads := T }
  | consumer {E : EventFd.Sys} (hc : s.mEventFd.consumer ≠ .idle)
      (hs : EventFd.step s.mEventFd .consumer = some E) : AppMove b s .main { s with mEventFd := E }
  | callback {a : EventFd.Action} {E : EventFd.Sys} (hc : s.inCallback = true) (ha : App.Callback s.mEventFd a)
      (hs : EventFd.step s.mEventFd a = some E) : AppMove b s (.worker 0) { s with mEventFd := E }
  | called {pos : ℕ} {thrown : Bool} {E : EventFd.Sys} {T : Threads} (hc : s.inCallback = true)
      (hn : s.mEventFd.notifiers 0 = .unlock pos thrown) (hE : EventFd.step s.mEventFd (.notifier 0) = some E)
      (hT : s.threads.step b (.worker 0) = some T) : AppMove b s (.worker 0) { s with threads := T, mEventFd := E }
  | round (hf : s.Free) (ht : s.todo = []) (hr : s.app.mStatus = .running) :
      AppMove b s .main { s with todo := [.signals, .select] }
  | leave {s' : App} (hf : s.Free) (ht : s.todo = []) (hr : s.app.mStatus ≠ .running) (hs : s.leave = some s') :
      AppMove b s .main s'
  | destroy {T : Threads} (hp : s.printed.isSome = true) (hc : s.mEventFd.consumer = .idle) (hb : s.threads.busy = false)
      (hr : s.threads.main.mRunning = true) (hs : s.threads.step b (.call .stop) = some T) :
      AppMove b s .main { s with threads := T }
  | signals {todo : List Task} (hf : s.Free) (ht : s.todo = .signals :: todo) :
      AppMove b s .main { s with todo }.processSignals
  | consume {todo : List Task} {E : EventFd.Sys} (hf : s.Free) (ht : s.todo = .consume :: todo)
      (hs : EventFd.step s.mEventFd .consume = some E) :
      AppMove b s .main { s with mEventFd := E, todo := .call .loadResults :: .loaded :: todo }
  | call {c : Call} {todo : List Task} {T : Threads} (hf : s.Free) (ht : s.todo = .call c :: todo)
      (hs : s.threads.step b (.call c) = some T) : AppMove b s .main { s with threads := T, todo }
  | loaded {todo : List Task} (hf : s.Free) (ht : s.todo = .loaded :: todo) :
      AppMove b s .main { s with todo := if s.loadedNew then .redraw :: todo else todo }
  | redraw {todo : List Task} {t : TermApp} (hf : s.Free) (ht : s.todo = .redraw :: todo)
      (hs : s.app.redraw b s.fzx = some t) : AppMove b s .main { s with app := t, todo }
  | select {tty input : Bool} {todo : List Task} (hf : s.Free) (ht : s.todo = .select :: todo)
      (hi : input = true → s.app.mInput = true) (hr : tty = true ∨ input = true ∨ 0 < s.mEventFd.pipe) :
      AppMove b s (.select tty input) { s with todo := s.ready tty input ++ todo }
  | interrupt {todo : List Task} (hf : s.Free) (ht : s.todo = .select :: todo) :
      AppMove b s .interrupt { s with todo := .signals :: todo }
  | keys {ks : List UInt8} {todo : List Task} (hf : s.Free) (ht : s.todo = .processTTY :: todo) :
      AppMove b s (.keys ks) { s with
        app := (TermApp.readKeys s.fzx ks s.app false).app
        todo := (TermApp.readKeys s.fzx ks s.app false).todo ++ todo }
  | input {r : TermApp.Reading} {todo : List Task} {out : TermApp.InputOut} (hf : s.Free)
      (ht : s.todo = .processInput :: todo) (hr : App.Reads s.app.mInputBuffer r = true)
      (hout : s.app.processInput r = some out) : AppMove b s (.input r) { s with
        app := out.app
        todo := out.todo ++ todo
        read := s.read ++ App.bytesOf r }
  | abort {r : TermApp.Reading} {todo : List Task} (hf : s.Free) (ht : s.todo = .processInput :: todo)
      (hr : App.Reads s.app.mInputBuffer r = true) (hout : s.app.processInput r = none) :
      AppMove b s (.input r) { s with read := s.read ++ App.bytesOf r, aborted := true }
  | quitSignal : AppMove b s .quitSignal { s with gQuitSignal := true }
  | resize {winsize : ℕ × ℕ} : AppMove b s (.resize winsize) { s with winsize, gResizeSignal := true }

section

variable {b : Build} {s s' : App}

theorem perform_cases {task : Task} {todo : List Task} (hf : s.Free) (ht : s.todo = task :: todo)
    (hs : { s with todo }.perform b task = some s') : AppMove b s .main s' := by
  cases task with
  | signals =>
    rw [← Option.some.inj hs]
    exact .signals hf ht
  | consume =>
    obtain ⟨E, hE, rfl⟩ := Option.map_eq_some_iff.1 hs
    exact .consume hf ht hE
  | call c =>
    obtain ⟨T, hT, rfl⟩ := Option.map_eq_some_iff.1 hs
    exact .call hf ht hT
  | loaded =>
    have hmove : AppMove b s .main _ := .loaded hf ht
    have he : (if { s with todo }.loadedNew then { s with todo := .redraw :: todo } else { s with todo }) =
        { s with todo := if s.loadedNew then .redraw :: todo else todo } := by
      change (if s.loadedNew then _ else _) = _
      split <;> rfl
    rw [← Option.some.inj hs, he]
    exact hmove
  | redraw =>
    obtain ⟨t, ht', rfl⟩ := Option.map_eq_some_iff.1 hs
    exact .redraw hf ht ht'
  | select => cases hs
  | processTTY => cases hs
  | processInput => cases hs

theorem mainStep_appMove (hs : s.mainStep b = some s') : AppMove b s .main s' := by
  unfold App.mainStep at hs
  split at hs
  · rename_i hc
    obtain ⟨E, hE, rfl⟩ := Option.map_eq_some_iff.1 hs
    exact .consumer hc hE
  · rename_i hc
    have hc : s.mEventFd.consumer = .idle := not_not.1 hc
    split at hs
    · rename_i hb
      obtain ⟨T, hT, rfl⟩ := Option.map_eq_some_iff.1 hs
      exact .main hc hb hT
    · rename_i hb
      have hb := Bool.eq_false_iff.2 hb
      split at hs
      · rename_i hp
        unfold App.destroy at hs
        split at hs
        · rename_i hr
          obtain ⟨T, hT, rfl⟩ := Option.map_eq_some_iff.1 hs
          exact .destroy hp hc hb hr hT
        · cases hs
      · rename_i hp
        have hf : s.Free := ⟨Option.not_isSome_iff_eq_none.1 hp, hc, hb⟩
        split at hs
        · rename_i ht
          split at hs
          · rename_i hr
            rw [← Option.some.inj hs]
            exact .round hf ht hr
          · rename_i hr
            exact .leave hf ht hr hs
        · rename_i task todo ht
          exact perform_cases hf ht hs

theorem callbackStep_cases (hc : s.inCallback = true) (hs : s.callbackStep b = some s') : AppMove b s (.worker 0) s' := by
  unfold App.callbackStep at hs
  cases hn : s.mEventFd.notifiers 0 with
  | idle =>
    simp only [hn] at hs
    obtain ⟨E, hE, rfl⟩ := Option.map_eq_some_iff.1 hs
    exact .callback hc (.call hn) hE
  | lock =>
    simp only [hn] at hs
    obtain ⟨E, hE, rfl⟩ := Option.map_eq_some_iff.1 hs
    exact .callback hc (.lock hn) hE
  | exchange =>
    simp only [hn] at hs
    obtain ⟨E, hE, rfl⟩ := Option.map_eq_some_iff.1 hs
    exact .callback hc (.exchange hn) hE
  | write i pos =>
    simp only [hn] at hs
    obtain ⟨E, hE, rfl⟩ := Option.map_eq_some_iff.1 hs
    exact .callback hc (.write hn) hE
  | unlock pos thrown =>
    simp only [hn] at hs
    obtain ⟨E, hE, hs⟩ := Option.bind_eq_some_iff.1 hs
    obtain ⟨T, hT, rfl⟩ := Option.map_eq_some_iff.1 hs
    exact .called hc hn hE hT

theorem worker_lt {w : ℕ} {T T' : Threads} (hs : T.step b (.worker w) = some T') : w < T.main.mWorkersSize := by
  unfold Threads.step at hs
  simp only at hs
  split at hs
  · rename_i hw
    exact hw
  · cases hs

/-- A program that was aborted takes no step. -/
theorem aborted_of_step {a : App.Action} (hs : s.step b a = some s') : s.aborted = false := by
  unfold App.step at hs
  split at hs
  · cases hs
  · rename_i ha
    exact Bool.eq_false_iff.2 ha

/-- **The steps of the program.** -/
theorem appMove_cases {a : App.Action} (hs : s.step b a = some s') : AppMove b s a s' := by
  unfold App.step at hs
  split at hs
  · cases hs
  cases a with
  | main => exact mainStep_appMove hs
  | worker w =>
    simp only [App.workerStep] at hs
    split at hs
    · rename_i hc
      obtain ⟨-, rfl, hc⟩ := hc
      exact callbackStep_cases hc hs
    · rename_i hc
      obtain ⟨T, hT, rfl⟩ := Option.map_eq_some_iff.1 hs
      exact .worker (fun h => hc ⟨worker_lt hT, h⟩) hT
  | wake w =>
    obtain ⟨T, hT, rfl⟩ := Option.map_eq_some_iff.1 hs
    exact .wake hT
  | select tty input =>
    simp only [App.select] at hs
    split at hs
    · rename_i todo ht
      split at hs
      · rename_i h
        rw [← Option.some.inj hs]
        exact .select (App.free_iff.1 h.1) ht h.2.1 h.2.2
      · cases hs
    · cases hs
  | interrupt =>
    simp only [App.interrupt] at hs
    split at hs
    · rename_i todo ht
      split at hs
      · rename_i h
        rw [← Option.some.inj hs]
        exact .interrupt (App.free_iff.1 h) ht
      · cases hs
    · cases hs
  | keys ks =>
    simp only [App.keys] at hs
    split at hs
    · rename_i todo ht
      split at hs
      · rename_i h
        rw [← Option.some.inj hs]
        exact .keys (App.free_iff.1 h) ht
      · cases hs
    · cases hs
  | input r =>
    simp only [App.input] at hs
    split at hs
    · rename_i todo ht
      split at hs
      · rename_i h
        have hf := App.free_iff.1 h.1
        split at hs
        · rename_i out hout
          rw [← Option.some.inj hs]
          exact .input hf ht h.2 hout
        · rename_i hout
          rw [← Option.some.inj hs]
          exact .abort hf ht h.2 hout
      · cases hs
    · cases hs
  | quitSignal =>
    rw [← Option.some.inj hs]
    exact .quitSignal
  | resize winsize =>
    rw [← Option.some.inj hs]
    exact .resize

end
end Fzx
