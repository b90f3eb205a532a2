import Fzx.AppStep
import Fzx.ThreadsMaster
/-!
# AppInv — the threads, the pipe and the tasks of the program

A run of the program is a run of the threads that never stops them and whose queries have no NUL (`Started`), and an orderly
one of the pipe: `consume` is called only when there is something to read (`PipeOk`).  The tasks are in order (`Planned`,
`TasksOk`): what follows from an event is done before the next one is looked at.
-/
namespace Fzx

open Lib

/-! ## The threads -/

/-- The threads after `start` and what may follow in the program. -/
def Started (b : Build) (hardwareConcurrency : ℕ) (T : Threads) : Prop :=
  ∃ post : List Threads.Action, (∀ a ∈ post, a.NoStop ∧ a.NulFree) ∧
    run (Threads.step b) (Threads.init hardwareConcurrency)
      ([.call (.setThreads hardwareConcurrency)] ++ .call .start :: post) = some T

namespace Started

variable {b : Build} {hardwareConcurrency : ℕ} {T T' : Threads}

theorem init (b : Build) (hardwareConcurrency : ℕ) (winsize : ℕ × ℕ) :
    Started b hardwareConcurrency (App.init hardwareConcurrency winsize).threads := ⟨[], nofun, rfl⟩

theorem step (h : Started b hardwareConcurrency T) {a : Threads.Action} (ha : a.NoStop ∧ a.NulFree)
    (hs : T.step b a = some T') : Started b hardwareConcurrency T' := by
  obtain ⟨post, hpost, hr⟩ := h
  refine ⟨post ++ [a], fun a' ha' => ?_, ?_⟩
  · rcases List.mem_append.1 ha' with ha' | ha'
    · exact hpost a' ha'
    · rw [List.mem_singleton.1 ha']
      exact ha
  · rw [← List.cons_append, ← List.append_assoc]
    exact run_append_eq_some.2 ⟨T, hr, run_cons_eq_some.2 ⟨T', hs, rfl⟩⟩

theorem quiet (h : Started b hardwareConcurrency T) : ThreadsQuiet T := by
  obtain ⟨post, hpost, hr⟩ := h
  refine run_threadsQuiet (fun a ha => ?_) hr
  rcases List.mem_append.1 ha with ha | ha
  · rw [List.mem_singleton.1 ha]
    trivial
  · rcases List.mem_cons.1 ha with rfl | ha
    · trivial
    · exact (hpost a ha).2

theorem content (h : Started b hardwareConcurrency T) : Live T.abs ∧ ContentInv b T.abs ∧ Queries T.abs.main := by
  obtain ⟨post, hpost, hr⟩ := h
  have hpre : ∀ a ∈ [Threads.Action.call (.setThreads hardwareConcurrency)], a.Prepares := by
    intro a ha
    rw [List.mem_singleton.1 ha]
    trivial
  obtain ⟨pre', post', hpre', hpost', -, hr'⟩ := threads_start hpre (fun a ha => (hpost a ha).1) hr
  obtain ⟨hl, hc⟩ := live_run (ContentInv b) (fun _ hp => hp.contentInv) (fun _ _ hl h hs => hs.contentInv hl h)
    hpre' hpost' hr'
  exact ⟨hl, hc, run_queries hr'⟩

theorem pos (h : Started b hardwareConcurrency T) : 0 < T.main.mWorkersSize := h.content.1.pos

theorem not_joining (h : Started b hardwareConcurrency T) (k : ℕ) : T.main.pc ≠ .joining k := by
  intro hpc
  refine h.content.1.joining k ?_
  change T.absPc = _
  unfold Threads.absPc
  rw [hpc]

end Started

/-! ## The tasks -/

/-- A task that follows from an event, and not one that looks for the next. -/
def Task.Now : Task → Prop
  | .call _ | .loaded | .redraw => True
  | .signals | .select | .processTTY | .processInput | .consume => False

/-- The main loop looks for an event, or at those that are there, in their order. -/
def Looks (todo : List Task) : Prop :=
  todo.Sublist [.signals, .select] ∨ todo.Sublist [.processTTY, .processInput, .consume]

theorem Looks.not_now {todo : List Task} (h : Looks todo) {t : Task} (ht : t ∈ todo) : ¬ t.Now := by
  rcases h with h | h
  · have hmem := h.subset ht
    simp only [List.mem_cons, List.not_mem_nil, or_false] at hmem
    rcases hmem with rfl | rfl <;> exact id
  · have hmem := h.subset ht
    simp only [List.mem_cons, List.not_mem_nil, or_false] at hmem
    rcases hmem with rfl | rfl | rfl <;> exact id

/-- First what follows from the last event. -/
inductive Planned : List Task → Prop where
  | later {todo : List Task} (h : Looks todo) : Planned todo
  | now {t : Task} {todo : List Task} (ht : t.Now) (h : Planned todo) : Planned (t :: todo)

namespace Planned

variable {t : Task} {todo : List Task}

theorem tail (h : Planned (t :: todo)) : Planned todo := by
  cases h with
  | later h => exact .later (h.imp (List.sublist_cons_self t todo).trans (List.sublist_cons_self t todo).trans)
  | now _ h => exact h

/-- After a task that looks for an event there are only such. -/
theorem looks (h : Planned (t :: todo)) (ht : ¬ t.Now) : Looks (t :: todo) := by
  cases h with
  | later h => exact h
  | now ht' _ => exact absurd ht' ht

theorem append (h : Planned todo) : ∀ {now : List Task}, (∀ t ∈ now, t.Now) → Planned (now ++ todo)
  | [], _ => h
  | _ :: _, hn => .now (hn _ List.mem_cons_self) (h.append (fun t ht => hn t (List.mem_cons_of_mem _ ht)))

theorem select (h : Planned (.select :: todo)) : todo = [] := by
  rcases h.looks id with h | h
  · cases h with
    | cons _ h =>
      cases h with
      | cons _ h => cases h
      | cons_cons _ h => exact List.sublist_nil.1 h
  · exact absurd (h.subset List.mem_cons_self) (by simp)

theorem signals (h : Planned (.signals :: todo)) : todo.Sublist [.select] := by
  rcases h.looks id with h | h
  · cases h with
    | cons _ h => exact (List.sublist_cons_self _ _).trans h
    | cons_cons _ h => exact h
  · exact absurd (h.subset List.mem_cons_self) (by simp)

theorem processTTY (h : Planned (.processTTY :: todo)) : todo.Sublist [.processInput, .consume] := by
  rcases h.looks id with h | h
  · exact absurd (h.subset List.mem_cons_self) (by simp)
  · cases h with
    | cons _ h => exact (List.sublist_cons_self _ _).trans h
    | cons_cons _ h => exact h

theorem processInput (h : Planned (.processInput :: todo)) : todo.Sublist [.consume] := by
  rcases h.looks id with h | h
  · exact absurd (h.subset List.mem_cons_self) (by simp)
  · cases h with
    | cons _ h =>
      cases h with
      | cons _ h => exact (List.sublist_cons_self _ _).trans h
      | cons_cons _ h => exact h

theorem consume (h : Planned (.consume :: todo)) : todo = [] := by
  rcases h.looks id with h | h
  · exact absurd (h.subset List.mem_cons_self) (by simp)
  · cases h with
    | cons _ h =>
      cases h with
      | cons _ h =>
        cases h with
        | cons _ h => cases h
        | cons_cons _ h => exact List.sublist_nil.1 h

end Planned

theorem ready_sublist (s : App) (tty input : Bool) :
    (s.ready tty input).Sublist [.processTTY, .processInput, .consume] := by
  have hone : ∀ (t : Task) (p : Prop) [Decidable p], (if p then [t] else []).Sublist [t] := by
    intro t p _
    split
    · exact .refl _
    · exact List.nil_sublist _
  exact ((hone .processTTY tty).append (hone .processInput input)).append (hone .consume _)

theorem consume_mem_ready {s : App} {tty input : Bool} (h : .consume ∈ s.ready tty input) : 1 ≤ s.mEventFd.pipe := by
  unfold App.ready at h
  by_contra hp
  have hnil : (if 0 < s.mEventFd.pipe then [Task.consume] else []) = [] := if_neg hp
  rw [hnil, List.append_nil] at h
  cases tty <;> cases input <;> simp at h

/-- The calls of the program, whose queries are its line. -/
def Call.Made (line : Bytes) : Call → Prop
  | .setQuery query => query = line
  | .pushItem _ | .commit | .loadResults => True
  | .setThreads _ | .start | .stop => False

structure TasksOk (s : App) : Prop where
  planned : Planned s.todo
  consuming : s.mEventFd.consumer ≠ .idle → .call .loadResults ∈ s.todo
  load : .call .loadResults ∈ s.todo → ∃ todo, s.todo = .call .loadResults :: .loaded :: todo ∧ .call .loadResults ∉ todo
  loading : (s.threads.workers 0).mOutput.reader ≠ .idle → ∃ todo, s.todo = .loaded :: todo
  consume : .consume ∈ s.todo → s.mEventFd.consumer = .idle ∧ 1 ≤ s.mEventFd.pipe
  calls : ∀ c, .call c ∈ s.todo → c.Made s.app.mLine.mLine
  line : ∀ c ∈ s.app.mLine.mLine, isprint c = true
  select : .select ∈ s.todo → s.app.mStatus = .running

/-! ## The line -/

theorem handle_line {e : LineEditor} (h : ∀ c ∈ e.mLine, isprint c = true) (key : UInt8) :
    ∀ c ∈ (e.handle key).1.mLine, isprint c = true := by
  unfold LineEditor.handle
  split
  · rename_i hk
    intro c hc
    rcases List.mem_append.1 hc with hc | hc
    · exact h c hc
    · rw [List.mem_singleton.1 hc]
      exact hk
  · split
    · exact fun c hc => h c (List.mem_of_mem_dropLast hc)
    · exact h

theorem nul_not_isprint {line : Bytes} (h : ∀ c ∈ line, isprint c = true) : (0 : UInt8) ∉ line :=
  fun h0 => by cases h 0 h0

/-- What the keys leave alone. -/
structure KeptByKeys (t t' : TermApp) : Prop where
  mLineScanner : t'.mLineScanner = t.mLineScanner
  mInput : t'.mInput = t.mInput
  mTTY : t'.mTTY = t.mTTY
  mInputBuffer : t'.mInputBuffer = t.mInputBuffer

theorem moveKey_keeps (fzx : Pool) (t : TermApp) (key : UInt8) : KeptByKeys t (t.moveKey fzx key) ∧
    (t.moveKey fzx key).mLine = t.mLine ∧ (t.moveKey fzx key).mStatus = t.mStatus := by
  unfold TermApp.moveKey
  split
  · exact ⟨⟨rfl, rfl, rfl, rfl⟩, rfl, rfl⟩
  · split
    · split <;> exact ⟨⟨rfl, rfl, rfl, rfl⟩, rfl, rfl⟩
    · split
      · split <;> exact ⟨⟨rfl, rfl, rfl, rfl⟩, rfl, rfl⟩
      · exact ⟨⟨rfl, rfl, rfl, rfl⟩, rfl, rfl⟩

/-- What the loop over the keys does, from every state of it. -/
structure KeysRead (t : TermApp) (updateQuery : Bool) (out : TermApp.KeysOut) : Prop where
  kept : KeptByKeys t out.app
  line : (∀ c ∈ t.mLine.mLine, isprint c = true) → ∀ c ∈ out.app.mLine.mLine, isprint c = true
  same : out.updateQuery = false → updateQuery = false ∧ out.app.mLine = t.mLine
  status : if out.ended then out.app.mStatus ≠ .running else out.app.mStatus = t.mStatus

theorem readKeys_read (fzx : Pool) : ∀ (ks : List UInt8) (t : TermApp) (u : Bool),
    KeysRead t u (TermApp.readKeys fzx ks t u)
  | [], t, u => ⟨⟨rfl, rfl, rfl, rfl⟩, id, fun h => ⟨h, rfl⟩, rfl⟩
  | key :: ks, t, u => by
    have hgo : ∀ {t' u'}, KeptByKeys t t' →
        ((∀ c ∈ t.mLine.mLine, isprint c = true) → ∀ c ∈ t'.mLine.mLine, isprint c = true) →
        (u' = false → u = false ∧ t'.mLine = t.mLine) → t'.mStatus = t.mStatus →
        KeysRead t u (TermApp.readKeys fzx ks t' u') := by
      intro t' u' hk hline hsame hstatus
      have ih := readKeys_read fzx ks t' u'
      refine ⟨⟨?_, ?_, ?_, ?_⟩, fun h => ih.line (hline h), fun h => ?_, ?_⟩
      · rw [ih.kept.mLineScanner, hk.mLineScanner]
      · rw [ih.kept.mInput, hk.mInput]
      · rw [ih.kept.mTTY, hk.mTTY]
      · rw [ih.kept.mInputBuffer, hk.mInputBuffer]
      · obtain ⟨hu, hl⟩ := ih.same h
        exact ⟨(hsame hu).1, hl.trans (hsame hu).2⟩
      · have hs := ih.status
        rwa [hstatus] at hs
    unfold TermApp.readKeys
    dsimp only
    split
    · exact hgo ⟨rfl, rfl, rfl, rfl⟩ (fun h => handle_line h key) nofun rfl
    · split
      · exact ⟨⟨rfl, rfl, rfl, rfl⟩, id, fun h => ⟨h, rfl⟩, (by decide : Status.exitSuccess ≠ .running)⟩
      · split
        · exact hgo ⟨rfl, rfl, rfl, rfl⟩ (fun _ => nofun) nofun rfl
        · split
          · exact ⟨⟨rfl, rfl, rfl, rfl⟩, id, fun h => ⟨h, rfl⟩, (by decide : Status.exitFailure ≠ .running)⟩
          · obtain ⟨hk, hline, hstatus⟩ := moveKey_keeps fzx t key
            exact hgo hk (fun h => by rwa [hline]) (fun h => ⟨h, hline⟩) hstatus

theorem keysTodo_now (out : TermApp.KeysOut) : ∀ t ∈ out.todo, t.Now := by
  unfold TermApp.KeysOut.todo
  intro t ht
  split at ht
  · cases ht
  · rcases List.mem_append.1 ht with ht | ht
    · split at ht
      · rw [List.mem_singleton.1 ht]
        trivial
      · cases ht
    · rw [List.mem_singleton.1 ht]
      trivial

theorem keysTodo_call {out : TermApp.KeysOut} {c : Call} (h : .call c ∈ out.todo) : c = .setQuery out.app.mLine.mLine := by
  unfold TermApp.KeysOut.todo at h
  split at h
  · cases h
  · rcases List.mem_append.1 h with h | h
    · split at h
      · cases List.mem_singleton.1 h
        rfl
      · cases h
    · cases List.mem_singleton.1 h

/-! ## The input -/

theorem inputTodo_now (out : TermApp.InputOut) : ∀ t ∈ out.todo, t.Now := by
  unfold TermApp.InputOut.todo
  intro t ht
  rcases List.mem_append.1 ht with ht | ht
  · obtain ⟨c, -, rfl⟩ := List.mem_map.1 ht
    trivial
  · split at ht
    · rw [List.mem_singleton.1 ht]
      trivial
    · cases ht

/-- What `finalize` leaves behind: the line, the status and what is selected stay. -/
structure KeptByInput (t : TermApp) (out : TermApp.InputOut) : Prop where
  mLine : out.app.mLine = t.mLine
  mStatus : out.app.mStatus = t.mStatus
  mTTY : out.app.mTTY = t.mTTY
  calls : ∀ c ∈ out.calls, (∃ str, c = .pushItem str) ∨ c = .commit

theorem mem_calls {c : Call} {pushed : List Bytes} {p : Prop} [Decidable p]
    (h : c ∈ pushed.map Call.pushItem ++ if p then [.commit] else []) : (∃ str, c = .pushItem str) ∨ c = .commit := by
  rcases List.mem_append.1 h with h | h
  · obtain ⟨str, -, rfl⟩ := List.mem_map.1 h
    exact .inl ⟨str, rfl⟩
  · split at h
    · exact .inr (List.mem_singleton.1 h)
    · cases h

theorem endInput_keeps {t : TermApp} {c : Throws.Call (List Bytes) Unit Bool} {out : TermApp.InputOut}
    (h : t.endInput c = some out) : KeptByInput t out := by
  unfold TermApp.endInput at h
  split at h
  · rw [← Option.some.inj h]
    exact ⟨rfl, rfl, rfl, fun c hc => mem_calls hc⟩
  · cases h

theorem processInput_keeps {t : TermApp} {r : TermApp.Reading} {out : TermApp.InputOut}
    (h : t.processInput r = some out) : KeptByInput t out := by
  cases r with
  | chunk str =>
    unfold TermApp.processInput at h
    dsimp only at h
    split at h
    · rw [← Option.some.inj h]
      exact ⟨rfl, rfl, rfl, fun c hc => mem_calls hc⟩
    · exact endInput_keeps h
  | eof =>
    unfold TermApp.processInput at h
    dsimp only at h
    split at h <;> exact endInput_keeps h
  | error =>
    rw [← Option.some.inj h]
    exact ⟨rfl, rfl, rfl, nofun⟩

theorem inputTodo_call {t : TermApp} {out : TermApp.InputOut} (hk : KeptByInput t out) {c : Call}
    (h : .call c ∈ out.todo) : (∃ str, c = .pushItem str) ∨ c = .commit := by
  unfold TermApp.InputOut.todo at h
  rcases List.mem_append.1 h with h | h
  · obtain ⟨c', hc', he⟩ := List.mem_map.1 h
    cases he
    exact hk.calls c hc'
  · split at h
    · cases List.mem_singleton.1 h
    · cases h

/-! ## The steps -/

structure PipeOk (s : App) : Prop where
  inv : EventFd.Inv s.mEventFd
  others : ∀ p ≠ 0, s.mEventFd.notifiers p = .idle
  callback : s.mEventFd.notifiers 0 ≠ .idle → s.inCallback = true

structure AppOk (b : Build) (hardwareConcurrency : ℕ) (s : App) : Prop where
  threads : Started b hardwareConcurrency s.threads
  pipe : PipeOk s
  tasks : TasksOk s

theorem inCallback_iff {s : App} : s.inCallback = true ↔ (s.threads.workers 0).pc = .notify := decide_eq_true_iff

/-- What a callback does to the pipe: no call of it ends. -/
theorem callback_cases {E E' : EventFd.Sys} {a : EventFd.Action} (ha : App.Callback E a) (hs : EventFd.step E a = some E') :
    EventFd.Orderly E a ∧ E'.consumer = E.consumer ∧ E.pipe ≤ E'.pipe ∧ ∀ p ≠ 0, E'.notifiers p = E.notifiers p := by
  have hother : ∀ (pc : EventFd.NotifyPc), ∀ p ≠ 0, Function.update E.notifiers 0 pc p = E.notifiers p :=
    fun pc p hp => Function.update_of_ne hp _ _
  cases ha with
  | call h =>
    obtain ⟨-, rfl⟩ := EventFd.notify_cases hs
    exact ⟨trivial, rfl, le_rfl, hother _⟩
  | lock h =>
    rcases EventFd.notifierStep_cases hs with ⟨-, -, rfl⟩ | ⟨hpc, -⟩ | ⟨hpc, -⟩ | ⟨_, _, hpc, -⟩
    · exact ⟨trivial, rfl, le_rfl, hother _⟩
    all_goals cases h.symm.trans hpc
  | exchange h =>
    rcases EventFd.notifierStep_cases hs with ⟨hpc, -⟩ | ⟨-, -, rfl⟩ | ⟨-, -, rfl⟩ | ⟨_, _, hpc, -⟩
    · cases h.symm.trans hpc
    · exact ⟨trivial, rfl, le_rfl, hother _⟩
    · exact ⟨trivial, rfl, le_rfl, hother _⟩
    · cases h.symm.trans hpc
  | write h =>
    obtain ⟨i, pos, -, rfl⟩ := EventFd.writeStep_cases hs
    exact ⟨rfl, rfl, Nat.le_succ _, hother _⟩

theorem leave_eq {s s' : App} (hs : s.leave = some s') : ∃ lines, s' = { s with printed := some lines } := by
  unfold App.leave at hs
  split at hs
  · obtain ⟨lines, -, rfl⟩ := Option.map_eq_some_iff.1 hs
    exact ⟨lines, rfl⟩
  · exact ⟨[], (Option.some.inj hs).symm⟩

/-- The three ways of looking at the signals. -/
theorem processSignals_cases (s : App) :
    s.processSignals = { s with gQuitSignal := false, app := s.app.quit false, todo := [] } ∨
    s.processSignals = { s with
      gResizeSignal := false
      app := { s.app with mTTY := { s.app.mTTY with mWidth := s.winsize.1, mHeight := s.winsize.2 } }
      todo := .redraw :: s.todo } ∨ s.processSignals = s := by
  unfold App.processSignals
  split
  · exact .inl rfl
  · split
    · exact .inr (.inl rfl)
    · exact .inr (.inr rfl)

theorem redraw_eq {b : Build} {fzx : Pool} {t t' : TermApp} (hs : t.redraw b fzx = some t') :
    t'.mLine = t.mLine ∧ t'.mStatus = t.mStatus ∧ t'.mLineScanner = t.mLineScanner ∧ t'.mInput = t.mInput ∧
      t'.mInputBuffer = t.mInputBuffer ∧ t'.mSelection = t.mSelection := by
  unfold TermApp.redraw at hs
  split at hs
  · cases hs
    exact ⟨rfl, rfl, rfl, rfl, rfl, rfl⟩
  · obtain ⟨bytes, -, rfl⟩ := Option.map_eq_some_iff.1 hs
    exact ⟨rfl, rfl, rfl, rfl, rfl, rfl⟩

/-! ### The threads -/

theorem call_eq {b : Build} {T T' : Threads} {c : Call} (hs : T.step b (.call c) = some T') : T' = T.call c := by
  unfold Threads.step at hs
  simp only at hs
  split at hs
  · cases hs
  · exact (Option.some.inj hs).symm

/-- A call that is made, if it does not load, changes no worker. -/
theorem call_workers {T : Threads} {c : Call} {line : Bytes} (hc : c.Made line) (hl : c ≠ .loadResults) :
    (T.call c).workers = T.workers := by
  cases c with
  | setThreads _ => exact hc.elim
  | start => exact hc.elim
  | stop => exact hc.elim
  | loadResults => exact absurd rfl hl
  | pushItem _ => rfl
  | setQuery _ => rfl
  | commit => rfl

theorem loadStep_pc (T : Threads) : ((T.loadStep 0 id).workers 0).pc = (T.workers 0).pc := by
  rw [ThreadsOk.loadStep_eq, Threads.worker_self]

/-- A step of a call leaves the workers where they are. -/
theorem main_pc {b : Build} {T T' : Threads} (hs : T.step b .main = some T') : (T'.workers 0).pc = (T.workers 0).pc := by
  by_cases hj : ∃ k, T.main.pc = .joining k
  · obtain ⟨k, hpc⟩ := hj
    have hs : T.mainStep = some T' := hs
    unfold Threads.mainStep at hs
    simp only [hpc] at hs
    obtain ⟨P, -, rfl⟩ := Option.map_eq_some_iff.1 hs
    rfl
  · rcases ThreadsOk.main_master hs (fun k hpc => hj ⟨k, hpc⟩) with ⟨-, hpc, -⟩ | ⟨-, rfl⟩
    · exact hpc
    · exact loadStep_pc T

theorem printed_ne_none {s : App} (h : s.printed.isSome = true) : s.printed ≠ none :=
  fun hn => by rw [hn] at h; cases h

namespace PipeOk

variable {s : App}

theorem threads (h : PipeOk s) {T : Threads}
    (hpc : (s.threads.workers 0).pc = .notify → (T.workers 0).pc = .notify) : PipeOk { s with threads := T } :=
  ⟨h.inv, h.others, fun hn => inCallback_iff.2 (hpc (inCallback_iff.1 (h.callback hn)))⟩

theorem callback_step (h : PipeOk s) {a : EventFd.Action} {E : EventFd.Sys} (hc : s.inCallback = true)
    (ha : App.Callback s.mEventFd a) (hs : EventFd.step s.mEventFd a = some E) : PipeOk { s with mEventFd := E } := by
  obtain ⟨ho, -, -, hother⟩ := callback_cases ha hs
  exact ⟨EventFd.inv_step h.inv ho hs, fun p hp => (hother p hp).trans (h.others p hp), fun _ => hc⟩

/-- The end of a callback. -/
theorem called (h : PipeOk s) {pos : ℕ} {thrown : Bool} {E : EventFd.Sys} {T : Threads}
    (hn : s.mEventFd.notifiers 0 = .unlock pos thrown) (hE : EventFd.step s.mEventFd (.notifier 0) = some E) :
    PipeOk { s with threads := T, mEventFd := E } := by
  have hinv := EventFd.inv_step (a := .notifier 0) h.inv trivial hE
  rcases EventFd.notifierStep_cases hE with ⟨hpc, -⟩ | ⟨hpc, -⟩ | ⟨hpc, -⟩ | ⟨_, _, -, rfl⟩
  · cases hn.symm.trans hpc
  · cases hn.symm.trans hpc
  · cases hn.symm.trans hpc
  · have hidle : Function.update s.mEventFd.notifiers 0 .idle 0 = .idle := Function.update_self ..
    exact ⟨hinv, fun p hp => (Function.update_of_ne hp _ _).trans (h.others p hp), fun hne => absurd hidle hne⟩

end PipeOk

namespace AppOk

variable {b : Build} {hardwareConcurrency : ℕ} {s s' : App} {a : App.Action}

theorem made (h : AppOk b hardwareConcurrency s) {c : Call} (hc : .call c ∈ s.todo) :
    (Threads.Action.call c).NoStop ∧ (Threads.Action.call c).NulFree := by
  have hm := h.tasks.calls c hc
  cases c with
  | setThreads _ => exact hm.elim
  | start => exact hm.elim
  | stop => exact hm.elim
  | setQuery query =>
    refine ⟨trivial, ?_⟩
    change (0 : UInt8) ∉ query
    rw [show query = _ from hm]
    exact nul_not_isprint h.tasks.line
  | _ => exact ⟨trivial, trivial⟩

/-- **The steps of the threads** are those of a run of them. -/
theorem started (h : AppOk b hardwareConcurrency s) (hm : AppMove b s a s') (hp : s'.printed = none) :
    Started b hardwareConcurrency s'.threads := by
  cases hm with
  | worker _ hs => exact h.threads.step (by exact ⟨trivial, trivial⟩) hs
  | wake hs => exact h.threads.step (by exact ⟨trivial, trivial⟩) hs
  | main _ _ hs => exact h.threads.step (by exact ⟨trivial, trivial⟩) hs
  | called _ _ _ hs => exact h.threads.step (by exact ⟨trivial, trivial⟩) hs
  | call _ ht hs => exact h.threads.step (h.made (ht ▸ List.mem_cons_self)) hs
  | leave _ _ _ hs =>
    obtain ⟨lines, rfl⟩ := leave_eq hs
    cases hp
  | destroy hp' => exact absurd hp (printed_ne_none hp')
  | @signals todo _ _ =>
    rcases processSignals_cases { s with todo } with he | he | he <;>
    · rw [he]
      exact h.threads
  | _ => exact h.threads

/-- **The pipe stays in order.** -/
theorem pipeOk (h : AppOk b hardwareConcurrency s) (hm : AppMove b s a s') (hp : s'.printed = none) : PipeOk s' := by
  obtain ⟨hinv, hothers, hcallback⟩ := h.pipe
  have hok := h.threads.quiet.ok
  cases hm with
  | worker hc hs => exact h.pipe.threads (hok.worker_master hs (fun he => hc ⟨he.1, inCallback_iff.2 he.2⟩)).2.notify
  | wake hs => exact h.pipe.threads (ThreadsOk.wake_master hs).2.notify
  | main _ _ hs => exact h.pipe.threads (main_pc hs).trans
  | consumer _ hs =>
    have hinv' := EventFd.inv_step (a := .consumer) hinv trivial hs
    rcases EventFd.consumerStep_cases hs with ⟨-, -, rfl⟩ | ⟨-, -, rfl⟩ | ⟨_, -, rfl⟩ <;> exact ⟨hinv', hothers, hcallback⟩
  | callback hc ha hs => exact h.pipe.callback_step hc ha hs
  | called _ hn hE _ => exact h.pipe.called hn hE
  | leave _ _ _ hs =>
    obtain ⟨lines, rfl⟩ := leave_eq hs
    cases hp
  | destroy hp' => exact absurd hp (printed_ne_none hp')
  | @signals todo _ _ =>
    rcases processSignals_cases { s with todo } with he | he | he <;>
    · rw [he]
      exact ⟨hinv, hothers, hcallback⟩
  | consume _ ht hs =>
    have hinv' := EventFd.inv_step (a := .consume) hinv (h.tasks.consume (ht ▸ List.mem_cons_self)).2 hs
    obtain ⟨-, rfl⟩ := EventFd.consume_cases hs
    exact ⟨hinv', hothers, hcallback⟩
  | @call c todo T _ ht hs =>
    have hpipe := h.pipe.threads (T := T) (fun hpc => ?_)
    · exact ⟨hpipe.inv, hpipe.others, hpipe.callback⟩
    rw [call_eq hs]
    by_cases hl : c = .loadResults
    · subst hl
      have hcall : s.threads.call .loadResults = s.threads.loadStep 0 id := if_neg h.threads.pos.ne'
      rw [hcall]
      exact (loadStep_pc _).trans hpc
    · rw [call_workers (h.tasks.calls c (ht ▸ List.mem_cons_self)) hl]
      exact hpc
  | _ => exact ⟨hinv, hothers, hcallback⟩

/-- **The first task is done**: the others are left, after what follows from it. -/
theorem tasksOk_next (h : TasksOk s) {t : Task} {todo l m : List Task} (ht : s.todo = t :: todo)
    (ht' : s'.todo = l ++ m) (hnow : ∀ u ∈ l, u.Now ∧ u ≠ .call .loadResults) (hlater : m.Sublist todo)
    (hp : Planned m) (hload : .call .loadResults ∉ todo) (hreader : (s'.threads.workers 0).mOutput.reader = .idle)
    (hcons : s'.mEventFd.consumer = .idle) (hpipe : s.mEventFd.pipe ≤ s'.mEventFd.pipe)
    (hcalls : ∀ c, .call c ∈ l ++ m → c.Made s'.app.mLine.mLine)
    (hline : ∀ c ∈ s'.app.mLine.mLine, isprint c = true)
    (hselect : .select ∈ m → s'.app.mStatus = .running) : TasksOk s' := by
  have hmem : ∀ u, ¬ u.Now → u ∈ s'.todo → u ∈ m := by
    intro u hu hmem
    rw [ht'] at hmem
    exact (List.mem_append.1 hmem).resolve_left (fun hm => hu (hnow u hm).1)
  have hno : .call .loadResults ∉ s'.todo := by
    rw [ht']
    intro hm
    rcases List.mem_append.1 hm with hm | hm
    · exact (hnow _ hm).2 rfl
    · exact hload (hlater.subset hm)
  refine ⟨ht' ▸ hp.append (fun u hu => (hnow u hu).1), fun hne => absurd hcons hne, fun hm => absurd hm hno,
    fun hne => absurd hreader hne, fun hm => ⟨hcons, ?_⟩, fun c hc => hcalls c (ht' ▸ hc), hline,
    fun hm => hselect (hmem .select id hm)⟩
  have hin : Task.consume ∈ s.todo := by
    rw [ht]
    exact List.mem_cons_of_mem _ (hlater.subset (hmem .consume id hm))
  exact (h.consume hin).2.trans hpipe

/-! ### The tasks, one after the other -/

/-- What is known of the tasks but the first. -/
theorem rest (h : TasksOk s) {t : Task} {todo : List Task} (ht : s.todo = t :: todo) :
    Planned todo ∧ (∀ c, .call c ∈ todo → c.Made s.app.mLine.mLine) ∧ (.select ∈ todo → s.app.mStatus = .running) := by
  obtain ⟨hplanned, -, -, -, -, hcalls, -, hselect⟩ := h
  rw [ht] at hplanned hcalls hselect
  exact ⟨hplanned.tail, fun c hc => hcalls c (List.mem_cons_of_mem _ hc), fun hs => hselect (List.mem_cons_of_mem _ hs)⟩

theorem no_load (h : TasksOk s) {t : Task} {todo : List Task} (ht : s.todo = t :: todo) (hne : t ≠ .call .loadResults) :
    .call .loadResults ∉ todo := by
  intro hmem
  obtain ⟨todo', he, -⟩ := h.load (ht ▸ List.mem_cons_of_mem _ hmem)
  rw [ht] at he
  exact hne (List.cons_eq_cons.1 he).1

theorem idle_reader {T : Threads} (hb : T.busy = false) : (T.workers 0).mOutput.reader = .idle := (ThreadsOk.not_busy hb).2

/-- The threads go on, and begin no load. -/
theorem tasksOk_threads (h : TasksOk s) {T : Threads}
    (hr : (T.workers 0).mOutput.reader ≠ .idle → (s.threads.workers 0).mOutput.reader ≠ .idle) :
    TasksOk { s with threads := T } :=
  ⟨h.planned, h.consuming, h.load, fun hne => h.loading (hr hne), h.consume, h.calls, h.line, h.select⟩

theorem tasksOk_signals (h : TasksOk s) (hf : s.Free) {todo : List Task} (ht : s.todo = .signals :: todo) :
    TasksOk { s with todo }.processSignals := by
  obtain ⟨hp, hc, hsel⟩ := rest h ht
  have hload := no_load h ht nofun
  rcases processSignals_cases { s with todo } with he | he | he <;> rw [he]
  · exact tasksOk_next (l := []) (m := []) h ht rfl nofun (List.nil_sublist _) (.later (.inl (List.nil_sublist _)))
      hload (idle_reader hf.busy) hf.consumer le_rfl nofun h.line nofun
  · refine tasksOk_next (l := [.redraw]) h ht rfl ?_ (.refl _) hp hload (idle_reader hf.busy) hf.consumer le_rfl ?_ h.line hsel
    · intro u hu
      rw [List.mem_singleton.1 hu]
      exact ⟨trivial, nofun⟩
    · intro c hmem
      rcases List.mem_cons.1 hmem with he | hmem
      · cases he
      · exact hc c hmem
  · exact tasksOk_next (l := []) h ht rfl nofun (.refl _) hp hload (idle_reader hf.busy) hf.consumer le_rfl hc h.line hsel

/-- `consume` is the last task of its round. -/
theorem tasksOk_consume (h : TasksOk s) (hf : s.Free) {todo : List Task} (ht : s.todo = .consume :: todo)
    (E : EventFd.Sys) : TasksOk { s with mEventFd := E, todo := .call .loadResults :: .loaded :: todo } := by
  have hplanned := h.planned
  rw [ht] at hplanned
  obtain rfl := hplanned.consume
  refine ⟨.now trivial (.now trivial (.later (.inl (List.nil_sublist _)))), fun _ => List.mem_cons_self,
    fun _ => ⟨[], rfl, nofun⟩, fun hne => absurd (idle_reader hf.busy) hne, by simp, ?_, h.line, by simp⟩
  intro c hmem
  simp only [List.mem_cons, List.not_mem_nil, or_false, reduceCtorEq, Task.call.injEq] at hmem
  rw [hmem]
  trivial

theorem tasksOk_call (h : TasksOk s) (hf : s.Free) {c : Call} {todo : List Task} {T : Threads}
    (ht : s.todo = .call c :: todo) (hs : s.threads.step b (.call c) = some T) : TasksOk { s with threads := T, todo } := by
  obtain ⟨hp, hc, hsel⟩ := rest h ht
  by_cases hl : c = .loadResults
  · subst hl
    obtain ⟨rest, he, hno⟩ := h.load (ht ▸ List.mem_cons_self)
    rw [ht] at he
    obtain rfl := (List.cons_eq_cons.1 he).2
    refine ⟨hp, fun hne => absurd hf.consumer hne, fun hmem => ?_, fun _ => ⟨rest, rfl⟩,
      fun hmem => h.consume (ht ▸ List.mem_cons_of_mem _ hmem), hc, h.line, hsel⟩
    rcases List.mem_cons.1 hmem with he | hmem
    · cases he
    · exact absurd hmem hno
  · have hworkers : T.workers = s.threads.workers := by
      rw [call_eq hs]
      exact call_workers (h.calls c (ht ▸ List.mem_cons_self)) hl
    refine tasksOk_next (l := []) h ht rfl nofun (.refl _) hp (no_load h ht (fun he => hl (by cases he; rfl))) ?_ hf.consumer
      le_rfl hc h.line hsel
    change (T.workers 0).mOutput.reader = _
    rw [hworkers]
    exact idle_reader hf.busy

theorem tasksOk_loaded (h : TasksOk s) (hf : s.Free) {todo : List Task} (ht : s.todo = .loaded :: todo) :
    TasksOk { s with todo := if s.loadedNew then .redraw :: todo else todo } := by
  obtain ⟨hp, hc, hsel⟩ := rest h ht
  have hno := no_load h ht nofun
  cases hnew : s.loadedNew with
  | true =>
    refine tasksOk_next (l := [.redraw]) h ht rfl ?_ (.refl _) hp hno (idle_reader hf.busy) hf.consumer le_rfl ?_ h.line hsel
    · intro u hu
      rw [List.mem_singleton.1 hu]
      exact ⟨trivial, nofun⟩
    · intro c hmem
      rcases List.mem_cons.1 hmem with he | hmem
      · cases he
      · exact hc c hmem
  | false =>
    exact tasksOk_next (l := []) h ht rfl nofun (.refl _) hp hno (idle_reader hf.busy) hf.consumer le_rfl hc h.line hsel

/-- What `pselect` finds ready. -/
theorem tasksOk_select (h : TasksOk s) (hf : s.Free) {todo : List Task} (ht : s.todo = .select :: todo)
    (tty input : Bool) : TasksOk { s with todo := s.ready tty input ++ todo } := by
  have hplanned := h.planned
  rw [ht] at hplanned
  obtain rfl := hplanned.select
  have hsub := ready_sublist s tty input
  have hmem : ∀ u, u ∈ s.ready tty input ++ [] → u = .processTTY ∨ u = .processInput ∨ u = .consume := by
    intro u hu
    rw [List.append_nil] at hu
    simpa using hsub.subset hu
  refine ⟨.later (.inr (by rwa [List.append_nil])), fun hne => absurd hf.consumer hne, fun hu => ?_,
    fun hne => absurd (idle_reader hf.busy) hne, fun hu => ⟨hf.consumer, ?_⟩, fun c hu => ?_, h.line, fun hu => ?_⟩
  · rcases hmem _ hu with he | he | he <;> cases he
  · exact consume_mem_ready (List.append_nil (s.ready tty input) ▸ hu)
  · rcases hmem _ hu with he | he | he <;> cases he
  · rcases hmem _ hu with he | he | he <;> cases he

theorem tasksOk_keys (h : TasksOk s) (hf : s.Free) {todo : List Task} (ht : s.todo = .processTTY :: todo)
    (ks : List UInt8) : TasksOk { s with
      app := (TermApp.readKeys s.fzx ks s.app false).app
      todo := (TermApp.readKeys s.fzx ks s.app false).todo ++ todo } := by
  have hplanned := h.planned
  rw [ht] at hplanned
  have hmem : ∀ u ∈ todo, u = .processInput ∨ u = .consume := fun u hu => by simpa using hplanned.processTTY.subset hu
  have hread := readKeys_read s.fzx ks s.app false
  refine tasksOk_next h ht rfl (fun u hu => ⟨keysTodo_now _ u hu, ?_⟩) (.refl _) (rest h ht).1 (no_load h ht nofun)
    (idle_reader hf.busy) hf.consumer le_rfl ?_ (hread.line h.line) (fun hu => ?_)
  · rintro rfl
    cases keysTodo_call hu
  · intro c hu
    rcases List.mem_append.1 hu with hu | hu
    · rw [keysTodo_call hu]
      exact (rfl : _ = _)
    · rcases hmem _ hu with he | he <;> cases he
  · rcases hmem _ hu with he | he <;> cases he

theorem tasksOk_input (h : TasksOk s) (hf : s.Free) {r : TermApp.Reading} {todo : List Task} {out : TermApp.InputOut}
    (ht : s.todo = .processInput :: todo) (hout : s.app.processInput r = some out) (str : Bytes) :
    TasksOk { s with app := out.app, todo := out.todo ++ todo, read := str } := by
  have hplanned := h.planned
  rw [ht] at hplanned
  have hmem : ∀ u ∈ todo, u = .consume := fun u hu => by simpa using hplanned.processInput.subset hu
  have hkept := processInput_keeps hout
  refine tasksOk_next h ht rfl (fun u hu => ⟨inputTodo_now _ u hu, ?_⟩) (.refl _) (rest h ht).1 (no_load h ht nofun)
    (idle_reader hf.busy) hf.consumer le_rfl ?_ (hkept.mLine.symm ▸ h.line) (fun hu => ?_)
  · rintro rfl
    rcases inputTodo_call hkept hu with ⟨str, he⟩ | he <;> cases he
  · intro c hu
    rcases List.mem_append.1 hu with hu | hu
    · rcases inputTodo_call hkept hu with ⟨str, rfl⟩ | rfl <;> trivial
    · cases hmem _ hu
  · cases hmem _ hu

/-- **The tasks stay in order.** -/
theorem tasksOk (h : AppOk b hardwareConcurrency s) (hm : AppMove b s a s') (hp : s'.printed = none) : TasksOk s' := by
  have htasks := h.tasks
  have hok := h.threads.quiet.ok
  cases hm with
  | worker hc hs =>
    have hmaster := (hok.worker_master hs (fun he => hc ⟨he.1, inCallback_iff.2 he.2⟩)).2
    exact tasksOk_threads htasks (hmaster.reader.reader ▸ id)
  | wake hs => exact tasksOk_threads htasks ((ThreadsOk.wake_master hs).2.reader.reader ▸ id)
  | main _ _ hs =>
    refine tasksOk_threads htasks (fun hne => ?_)
    rcases ThreadsOk.main_master hs h.threads.not_joining with ⟨ho, -, -⟩ | ⟨hr, -⟩
    · exact ho ▸ hne
    · exact hr
  | consumer hc hs =>
    exact ⟨htasks.planned, fun _ => htasks.consuming hc, htasks.load, htasks.loading,
      fun hmem => absurd (htasks.consume hmem).1 hc, htasks.calls, htasks.line, htasks.select⟩
  | callback hc ha hs =>
    obtain ⟨-, hcons, hpipe, -⟩ := callback_cases ha hs
    exact ⟨htasks.planned, fun hne => htasks.consuming (hcons ▸ hne), htasks.load, htasks.loading,
      fun hmem => ⟨hcons.trans (htasks.consume hmem).1, (htasks.consume hmem).2.trans hpipe⟩, htasks.calls, htasks.line,
      htasks.select⟩
  | @called pos thrown E T hc hn hE hT =>
    obtain ⟨-, -, hmaster, -⟩ := hok.called_master hT (inCallback_iff.1 hc)
    have hthreads := tasksOk_threads htasks (T := T) (fun hne => hmaster.reader ▸ hne)
    rcases EventFd.notifierStep_cases hE with ⟨hpc, -⟩ | ⟨hpc, -⟩ | ⟨hpc, -⟩ | ⟨_, _, -, rfl⟩
    · cases hn.symm.trans hpc
    · cases hn.symm.trans hpc
    · cases hn.symm.trans hpc
    · exact ⟨hthreads.planned, hthreads.consuming, hthreads.load, hthreads.loading, hthreads.consume, hthreads.calls,
        hthreads.line, hthreads.select⟩
  | round hf ht hr =>
    exact ⟨.later (.inl (.refl _)), fun hne => absurd hf.consumer hne, by simp, fun hne => absurd (idle_reader hf.busy) hne,
      by simp, by simp, htasks.line, fun _ => hr⟩
  | leave _ _ _ hs =>
    obtain ⟨lines, rfl⟩ := leave_eq hs
    cases hp
  | destroy hp' => exact absurd hp (printed_ne_none hp')
  | signals hf ht => exact tasksOk_signals htasks hf ht
  | consume hf ht _ => exact tasksOk_consume htasks hf ht _
  | call hf ht hs => exact tasksOk_call htasks hf ht hs
  | loaded hf ht => exact tasksOk_loaded htasks hf ht
  | @redraw todo t hf ht hs =>
    obtain ⟨hp, hc, hsel⟩ := rest htasks ht
    obtain ⟨hl, hst, -⟩ := redraw_eq hs
    exact tasksOk_next (l := []) htasks ht rfl nofun (.refl _) hp (no_load htasks ht nofun) (idle_reader hf.busy)
      hf.consumer le_rfl (hl.symm ▸ hc) (hl.symm ▸ htasks.line) (fun hmem => hst.trans (hsel hmem))
  | select hf ht _ _ => exact tasksOk_select htasks hf ht _ _
  | @interrupt todo hf ht =>
    have hplanned := htasks.planned
    rw [ht] at hplanned
    obtain rfl := hplanned.select
    exact ⟨.later (.inl (by simp)), fun hne => absurd hf.consumer hne, by simp, fun hne => absurd (idle_reader hf.busy) hne,
      by simp, by simp, htasks.line, by simp⟩
  | keys hf ht => exact tasksOk_keys htasks hf ht _
  | input hf ht _ hout => exact tasksOk_input htasks hf ht hout _
  | abort => exact ⟨htasks.planned, htasks.consuming, htasks.load, htasks.loading, htasks.consume, htasks.calls, htasks.line,
      htasks.select⟩
  | quitSignal => exact ⟨htasks.planned, htasks.consuming, htasks.load, htasks.loading, htasks.consume, htasks.calls,
      htasks.line, htasks.select⟩
  | resize => exact ⟨htasks.planned, htasks.consuming, htasks.load, htasks.loading, htasks.consume, htasks.calls,
      htasks.line, htasks.select⟩

theorem step (h : AppOk b hardwareConcurrency s) (hs : s.step b a = some s') (hp : s'.printed = none) :
    AppOk b hardwareConcurrency s' :=
  have hm := appMove_cases hs
  ⟨h.started hm hp, h.pipeOk hm hp, h.tasksOk hm hp⟩

theorem init (b : Build) (hardwareConcurrency : ℕ) (winsize : ℕ × ℕ) :
    AppOk b hardwareConcurrency (App.init hardwareConcurrency winsize) where
  threads := .init b hardwareConcurrency winsize
  pipe := ⟨EventFd.inv_init, fun _ _ => rfl, fun hne => absurd rfl hne⟩
  tasks := ⟨.later (.inl (List.nil_sublist _)), fun hne => absurd rfl hne, nofun, fun hne => absurd rfl hne, nofun, nofun,
    nofun, nofun⟩

end AppOk

end Fzx
