import Fzx.AppInput
/-!
# AppShown — what is on the screen

What the program last wrote is the frame of what it has, or the main thread is going to draw (`Display`), and the results
it has are the last that were committed, or it is going to load (`Fresh`).  So where it waits with nothing to do its screen
shows the matches of the line among the lines that it read (`app_shows`).
-/
namespace Fzx

open Lib

/-! ## What a frame is made of -/

/-- The same items and results. -/
structure SameView (p p' : Pool) : Prop where
  mItems : p'.main.mItems = p.main.mItems
  mWorkersSize : p'.main.mWorkersSize = p.main.mWorkersSize
  readBuffer : (p'.workers 0).mOutput.readBuffer = (p.workers 0).mOutput.readBuffer

namespace SameView

variable {p p' p'' : Pool}

theorem symm (h : SameView p p') : SameView p' p := ⟨h.mItems.symm, h.mWorkersSize.symm, h.readBuffer.symm⟩

theorem trans (h : SameView p p') (h' : SameView p' p'') : SameView p p'' :=
  ⟨h'.mItems.trans h.mItems, h'.mWorkersSize.trans h.mWorkersSize, h'.readBuffer.trans h.readBuffer⟩

variable (h : SameView p p')
include h

theorem queryResults : p'.queryResults = p.queryResults := by
  unfold Pool.queryResults Pool.getResults
  rw [h.mWorkersSize, h.readBuffer]

theorem resultsSize : p'.resultsSize = p.resultsSize := by
  unfold Pool.resultsSize
  rw [h.queryResults, h.mItems]

theorem getResult : p'.getResult = p.getResult := by
  funext i
  unfold Pool.getResult
  rw [h.queryResults, h.mItems]

theorem query : p'.query = p.query := by
  unfold Pool.query
  rw [h.queryResults]

/-- **The same frame.** -/
theorem frame (b : Build) (t : TermApp) : t.frame b p' = t.frame b p := by
  have hrow : t.putRow b p' = t.putRow b p := by
    funext i
    unfold TermApp.putRow
    rw [h.resultsSize, h.getResult, h.query]
  unfold TermApp.frame TermApp.putStatus
  rw [hrow, h.resultsSize, h.mItems]

end SameView

namespace App

/-- What the program sees with the results it loaded last. -/
def seen (s : App) : Pool :=
  s.fzx.setWorker 0 { s.fzx.workers 0 with
    mOutput := { (s.fzx.workers 0).mOutput with readBuffer := (s.threads.workers 0).mOutput.last } }

end App

theorem sameView_seen {s s' : App} (hi : s'.threads.main.mItems = s.threads.main.mItems)
    (hw : s'.threads.main.mWorkersSize = s.threads.main.mWorkersSize)
    (hl : (s'.threads.workers 0).mOutput.last = (s.threads.workers 0).mOutput.last) : SameView s.seen s'.seen := by
  refine ⟨hi, hw, ?_⟩
  unfold App.seen
  rw [setWorker_self, setWorker_self]
  exact hl

/-- Between its calls the program sees what it loaded. -/
theorem sameView_fzx {s : App} (hok : ThreadsOk s.threads) (hr : (s.threads.workers 0).mOutput.reader = .idle) :
    SameView s.fzx s.seen := by
  refine ⟨rfl, rfl, ?_⟩
  unfold App.seen
  rw [setWorker_self]
  exact Tx.last_of_idle (hok.worker 0).tx hr

/-! ## The results -/

/-- The main thread is going to load: worker 0 is to call back, or has, or a load is to be done. -/
def Told (s : App) : Prop :=
  ((s.threads.workers 0).Due ∧ (s.mEventFd.notifiers 0 = .idle ∨ s.mEventFd.notifiers 0 = .lock ∨
    s.mEventFd.notifiers 0 = .exchange)) ∨ s.mEventFd.mActive = true ∨ .call .loadResults ∈ s.todo

/-- It has the last results, or is going to load. -/
def Fresh (s : App) : Prop := (s.threads.workers 0).mOutput.Latest ∨ Told s

theorem Fresh.same {s s' : App} (h : Fresh s) (hT : s'.threads = s.threads) (hE : s'.mEventFd = s.mEventFd)
    (hload : .call .loadResults ∈ s.todo → .call .loadResults ∈ s'.todo) : Fresh s' := by
  unfold Fresh Told at *
  rw [hT, hE]
  exact h.imp_right (Or.imp_right (Or.imp_right hload))

/-- A callback does not reset the flag. -/
theorem callback_active {E E' : EventFd.Sys} {a : EventFd.Action} (ha : App.Callback E a) (hs : EventFd.step E a = some E')
    (h : E.mActive = true) : E'.mActive = true := by
  cases ha with
  | call _ =>
    obtain ⟨-, rfl⟩ := EventFd.notify_cases hs
    exact h
  | write _ =>
    obtain ⟨_, _, -, rfl⟩ := EventFd.writeStep_cases hs
    exact h
  | _ =>
    rcases EventFd.notifierStep_cases hs with ⟨-, -, rfl⟩ | ⟨-, -, rfl⟩ | ⟨-, -, rfl⟩ | ⟨_, _, -, rfl⟩
    · exact h
    · rfl
    · rfl
    · exact h

namespace AppOk

variable {b : Build} {hardwareConcurrency : ℕ} {s s' : App} {a : App.Action}

/-- **A commit is never missed.** -/
theorem fresh_master (h : AppOk b hardwareConcurrency s) (hf : Fresh s) {T : Threads}
    (hm : MasterMove (s.threads.workers 0) (T.workers 0)) : Fresh { s with threads := T } := by
  obtain ⟨hreader, hnotify, hcommits⟩ := hm
  rcases hcommits with ⟨hc, hdue⟩ | ⟨-, hpc, hc⟩
  · exact hf.imp (hreader.latest hc) (Or.imp_left (And.imp_left hdue))
  · refine .inr (.inl ⟨.inl ⟨hpc, hc⟩, .inl ?_⟩)
    by_contra hn
    have hin := inCallback_iff.1 (h.pipe.callback hn)
    cases hpc.symm.trans (hnotify hin)

/-- A task that loads nothing is done. -/
theorem fresh_next (h : AppOk b hardwareConcurrency s) (hf : Fresh s) (hT : s'.threads = s.threads)
    (hE : s'.mEventFd = s.mEventFd) {t : Task} {todo : List Task} (ht : s.todo = t :: todo)
    (hne : t ≠ .call .loadResults) : Fresh s' := by
  refine hf.same hT hE (fun hm => ?_)
  obtain ⟨todo', he, -⟩ := h.tasks.load hm
  rw [ht] at he
  exact absurd (List.cons_eq_cons.1 he).1 hne

theorem fresh_load (h : AppOk b hardwareConcurrency s) {T : Threads} (hT : T = s.threads.loadStep 0 id)
    (hl : (s.threads.workers 0).mOutput.reader ≠ .idle → (s.threads.workers 0).mOutput.Latest) {todo : List Task} :
    Fresh { s with threads := T, todo } := by
  left
  change (T.workers 0).mOutput.Latest
  rw [hT, ThreadsOk.loadStep_eq, Threads.worker_self]
  exact Tx.readerStep_latest (h.threads.quiet.ok.worker 0).tx hl

theorem fresh (h : AppOk b hardwareConcurrency s) (hf : Fresh s) (hm : AppMove b s a s') (hp : s'.printed = none) :
    Fresh s' := by
  have hok := h.threads.quiet.ok
  cases hm with
  | worker hc hs => exact h.fresh_master hf (hok.worker_master hs (fun he => hc ⟨he.1, inCallback_iff.2 he.2⟩)).2
  | wake hs => exact h.fresh_master hf (ThreadsOk.wake_master hs).2
  | @main T _ _ hs =>
    rcases ThreadsOk.main_master hs h.threads.not_joining with ⟨ho, hpc, -⟩ | ⟨hr, hT⟩
    · exact h.fresh_master hf (.of_eq ho hpc)
    · rcases hf with hl | hdue | hact | hload
      · exact h.fresh_load hT (fun _ => hl)
      · refine .inr (.inl ⟨?_, hdue.2⟩)
        have hdue := hdue.1
        change (T.workers 0).Due
        unfold WorkerThread.Due Tx.Sys.committed at *
        rwa [hT, ThreadsOk.loadStep_eq, Threads.worker_self, Tx.readerStep_writer]
      · exact .inr (.inr (.inl hact))
      · exact .inr (.inr (.inr hload))
  | consumer hc _ => exact .inr (.inr (.inr (h.tasks.consuming hc)))
  | callback hc ha hs =>
    have hnew : ∀ (pc : EventFd.NotifyPc), Function.update s.mEventFd.notifiers 0 pc 0 = pc :=
      fun pc => Function.update_self 0 pc s.mEventFd.notifiers
    rcases hf with hl | ⟨hdue, hn⟩ | hact | hload
    · exact .inl hl
    · right
      cases ha with
      | call hpc =>
        obtain ⟨-, rfl⟩ := EventFd.notify_cases hs
        exact .inl ⟨hdue, .inr (.inl (hnew _))⟩
      | lock hpc =>
        rcases EventFd.notifierStep_cases hs with ⟨-, -, rfl⟩ | ⟨he, -⟩ | ⟨he, -⟩ | ⟨_, _, he, -⟩
        · exact .inl ⟨hdue, .inr (.inr (hnew _))⟩
        all_goals cases hpc.symm.trans he
      | exchange hpc =>
        rcases EventFd.notifierStep_cases hs with ⟨he, -⟩ | ⟨-, -, rfl⟩ | ⟨-, -, rfl⟩ | ⟨_, _, he, -⟩
        · cases hpc.symm.trans he
        · exact .inr (.inl rfl)
        · exact .inr (.inl rfl)
        · cases hpc.symm.trans he
      | write hpc => rcases hn with hn | hn | hn <;> cases hpc.symm.trans hn
    · exact .inr (.inr (.inl (callback_active ha hs hact)))
    · exact .inr (.inr (.inr hload))
  | called hc hn hE hT =>
    obtain ⟨-, -, hreader, hcommits⟩ := hok.called_master hT (inCallback_iff.1 hc)
    rcases EventFd.notifierStep_cases hE with ⟨he, -⟩ | ⟨he, -⟩ | ⟨he, -⟩ | ⟨_, _, -, rfl⟩
    · cases hn.symm.trans he
    · cases hn.symm.trans he
    · cases hn.symm.trans he
    · rcases hf with hl | ⟨-, he⟩ | hact | hload
      · exact .inl (hreader.latest hcommits hl)
      · rcases he with he | he | he <;> cases hn.symm.trans he
      · exact .inr (.inr (.inl hact))
      · exact .inr (.inr (.inr hload))
  | round _ ht _ => exact hf.same rfl rfl (by simp [ht])
  | leave _ _ _ hs =>
    obtain ⟨lines, rfl⟩ := leave_eq hs
    cases hp
  | destroy hp' => exact absurd hp (printed_ne_none hp')
  | @signals todo _ ht =>
    rcases processSignals_cases { s with todo } with he | he | he <;>
    · rw [he]
      exact h.fresh_next hf rfl rfl ht nofun
  | consume _ _ _ => exact .inr (.inr (.inr List.mem_cons_self))
  | @call c todo T hfree ht hs =>
    have hT := call_eq hs
    by_cases hl : c = .loadResults
    · subst hl
      have hcall : s.threads.call .loadResults = s.threads.loadStep 0 id := if_neg h.threads.pos.ne'
      exact h.fresh_load (hT.trans hcall) (fun hne => absurd (ThreadsOk.not_busy hfree.busy).2 hne)
    · have hworkers : T.workers = s.threads.workers := by
        rw [hT]
        exact call_workers (h.tasks.calls c (ht ▸ List.mem_cons_self)) hl
      have hno : .call .loadResults ∉ s.todo := by
        intro hm
        obtain ⟨todo', he, -⟩ := h.tasks.load hm
        rw [ht] at he
        cases (List.cons_eq_cons.1 he).1
        exact hl rfl
      unfold Fresh Told at *
      dsimp only
      rw [hworkers]
      exact hf.imp_right (Or.imp_right (Or.imp_right (fun hm => absurd hm hno)))
  | loaded _ ht => exact h.fresh_next hf rfl rfl ht nofun
  | redraw _ ht _ => exact h.fresh_next hf rfl rfl ht nofun
  | select _ ht _ _ => exact h.fresh_next hf rfl rfl ht nofun
  | interrupt _ ht => exact h.fresh_next hf rfl rfl ht nofun
  | keys _ ht => exact h.fresh_next hf rfl rfl ht nofun
  | input _ ht _ _ => exact h.fresh_next hf rfl rfl ht nofun
  | abort => exact hf
  | quitSignal => exact hf
  | resize => exact hf

end AppOk

/-! ## The screen -/

/-- What was written last is the frame of what the program sees. -/
def Shown (b : Build) (s : App) : Prop :=
  4 ≤ s.app.mTTY.mHeight → 4 ≤ s.app.mTTY.mWidth →
    (∃ bytes, s.app.frame b s.seen = some bytes ∧ s.app.mTTY.flushed = some bytes) ∧
      (s.app.mCursor < s.seen.resultsSize ∨ s.seen.resultsSize = 0)

/-- There was no reason to draw. -/
structure Untouched (t : TermApp) (read : Bytes) : Prop where
  flushed : t.mTTY.flushed = none
  read : read = []
  mInput : t.mInput = true
  mLine : t.mLine.mLine = []

/-- The main thread has got new results, and is going to ask for that. -/
def News (s : App) : Prop :=
  (∃ todo, s.todo = .loaded :: todo) ∧ (s.threads.workers 0).mOutput.reader = .idle ∧
    (s.threads.workers 0).mOutput.news = true

def Display (b : Build) (s : App) : Prop :=
  s.app.mStatus = .running → Shown b s ∨ Untouched s.app s.read ∨ .redraw ∈ s.todo ∨ News s

theorem Shown.same {b : Build} {s s' : App} (h : Shown b s) (ha : s'.app = s.app) (hv : SameView s.seen s'.seen) :
    Shown b s' := by
  unfold Shown
  rw [ha, hv.frame, hv.resultsSize]
  exact h

/-- The frame and the number of items are all that is shown. -/
theorem Display.same {b : Build} {s s' : App} (h : Display b s) (ha : s'.app = s.app) (hr : s'.read = s.read)
    (hv : SameView s.seen s'.seen) (hdraw : .redraw ∈ s.todo → .redraw ∈ s'.todo)
    (hnews : News s → .redraw ∈ s'.todo ∨ News s') : Display b s' := by
  unfold Display
  rw [ha, hr]
  intro hrun
  rcases h hrun with hs | hu | hd | hn
  · exact .inl (hs.same ha hv)
  · exact .inr (.inl hu)
  · exact .inr (.inr (.inl (hdraw hd)))
  · exact .inr (.inr (hnews hn))

/-- **A redraw shows what there is.** -/
theorem redraw_shown {b : Build} {s : App} {t : TermApp} (hv : SameView s.fzx s.seen) (hs : s.app.redraw b s.fzx = some t)
    {todo : List Task} : Shown b { s with app := t, todo } := by
  intro hh hw
  unfold TermApp.redraw at hs
  split at hs
  · rename_i hsmall
    cases hs
    rcases hsmall with hsmall | hsmall
    · exact absurd hh (not_le.2 hsmall)
    · exact absurd hw (not_le.2 hsmall)
  · obtain ⟨bytes, hb, rfl⟩ := Option.map_eq_some_iff.1 hs
    rw [← hv.frame] at hb
    refine ⟨⟨bytes, hb, rfl⟩, ?_⟩
    change min s.app.mCursor ((s.fzx.resultsSize + (2 ^ 64 - 1)) % 2 ^ 64) < s.seen.resultsSize ∨
      s.seen.resultsSize = 0
    rw [hv.resultsSize]
    omega

namespace AppOk

variable {b : Build} {hardwareConcurrency : ℕ} {s s' : App} {a : App.Action}

/-- A step that leaves the items alone, and what the main thread has loaded. -/
theorem display_threads (hd : Display b s) {T : Threads} {E : EventFd.Sys}
    (hm : T.main = { s.threads.main with pc := T.main.pc })
    (hr : Tx.SameReader (s.threads.workers 0).mOutput (T.workers 0).mOutput)
    (hl : (T.workers 0).mOutput.last = (s.threads.workers 0).mOutput.last) :
    Display b { s with threads := T, mEventFd := E } :=
  hd.same rfl rfl (sameView_seen (congrArg Main.mItems hm :) (congrArg Main.mWorkersSize hm :) hl) id
    (fun hn => .inr ⟨hn.1, hr.reader.trans hn.2.1, hr.news.trans hn.2.2⟩)

theorem display_master (h : AppOk b hardwareConcurrency s) (hd : Display b s) {T : Threads} (hmain : T.main = s.threads.main)
    (hm : MasterMove (s.threads.workers 0) (T.workers 0)) : Display b { s with threads := T } := by
  refine display_threads (E := s.mEventFd) hd (by rw [hmain]) hm.reader
    (hm.reader.last (h.threads.quiet.ok.worker 0).tx ?_)
  rcases hm.commits with ⟨hc, -⟩ | ⟨hc, -, -⟩
  · exact .inl hc
  · exact .inr hc

/-- A step of a load. -/
theorem display_load (h : AppOk b hardwareConcurrency s) (hd : Display b s) {T : Threads} (hT : T = s.threads.loadStep 0 id)
    {l : List Task} (hn : ¬ News s) (hdraw : .redraw ∈ s.todo → .redraw ∈ Task.loaded :: l) :
    Display b { s with threads := T, todo := .loaded :: l } := by
  have htx := (h.threads.quiet.ok.worker 0).tx
  have hmain : T.main = s.threads.main := by
    rw [hT, ThreadsOk.loadStep_eq]
    rfl
  have hout : (T.workers 0).mOutput = Tx.readerStep (s.threads.workers 0).mOutput := by
    rw [hT, ThreadsOk.loadStep_eq, Threads.worker_self]
  rcases Tx.readerStep_last htx with hl | ⟨hidle, hnews⟩
  · refine hd.same rfl rfl (sameView_seen ?_ ?_ ?_) hdraw (fun hn' => absurd hn' hn)
    · rw [hmain]
    · rw [hmain]
    · rw [hout, hl]
  · exact fun _ => .inr (.inr (.inr ⟨⟨l, rfl⟩, hout ▸ hidle, hout ▸ hnews⟩))

/-- A task is done that changes nothing of what is shown. -/
theorem display_next (hd : Display b s) {t : Task} {todo l : List Task} (ht : s.todo = t :: todo) (ht' : s'.todo = l ++ todo)
    (hl : t ≠ .loaded) (hr : t ≠ .redraw) (hT : s'.threads = s.threads) (ha : s'.app = s.app) (hread : s'.read = s.read) :
    Display b s' := by
  refine hd.same ha hread (sameView_seen (by rw [hT]) (by rw [hT]) (by rw [hT])) (fun hm => ?_) (fun hn => ?_)
  · rw [ht] at hm
    rw [ht']
    exact List.mem_append_right _ ((List.mem_cons.1 hm).resolve_left (Ne.symm hr))
  · obtain ⟨⟨todo', he⟩, -⟩ := hn
    rw [ht] at he
    exact absurd (List.cons_eq_cons.1 he).1 hl

theorem loadedNew_eq (h : AppOk b hardwareConcurrency s) : s.loadedNew = (s.threads.workers 0).mOutput.news :=
  if_neg h.threads.pos.ne'

theorem commit_mWorkersSize (s : Pool) : s.commit.main.mWorkersSize = s.main.mWorkersSize := by
  grind [Pool.commit, Pool.renewQueue, Pool.setJob]

theorem setQuery_mWorkersSize (s : Pool) (query : Bytes) :
    (s.setQuery query).main.mWorkersSize = s.main.mWorkersSize := by
  have hcommit := commit_mWorkersSize (s.withQuery (Query.parse query))
  grind [Pool.setQuery, Pool.withQuery]

/-- A call, after which what it changed is drawn. -/
theorem display_call (h : AppOk b hardwareConcurrency s) (hi : InputOk s) (hd : Display b s) {c : Call} {todo : List Task}
    {T : Threads} (ht : s.todo = .call c :: todo) (hs : s.threads.step b (.call c) = some T) :
    Display b { s with threads := T, todo } := by
  have hT := call_eq hs
  have hmade : c.Made s.app.mLine.mLine := h.tasks.calls c (ht ▸ List.mem_cons_self)
  have hn : ¬ News s := by
    rintro ⟨⟨todo', he⟩, -⟩
    cases ht.symm.trans he
  have hdraw : .redraw ∈ s.todo → .redraw ∈ todo := by
    intro hm
    rw [ht] at hm
    exact (List.mem_cons.1 hm).resolve_left nofun
  have hkeep : T.main.mItems = s.threads.main.mItems → T.main.mWorkersSize = s.threads.main.mWorkersSize →
      T.workers = s.threads.workers → Display b { s with threads := T, todo } := by
    intro hi hw hworkers
    refine hd.same rfl rfl (sameView_seen hi hw ?_) hdraw (fun hn' => absurd hn' hn)
    change (T.workers 0).mOutput.last = _
    rw [hworkers]
  cases c with
  | setThreads _ => exact hmade.elim
  | start => exact hmade.elim
  | stop => exact hmade.elim
  | pushItem str =>
    have hdraws := hi.draws
    rw [ht] at hdraws
    exact fun _ => .inr (.inr (.inl (hdraws [] str todo rfl)))
  | setQuery query =>
    have hmain : T.main = (s.threads.own.setQuery query).main := by rw [hT]; rfl
    exact hkeep (hmain ▸ (setQuery_main s.threads.own query).1) (hmain ▸ setQuery_mWorkersSize s.threads.own query)
      (hT ▸ rfl)
  | commit =>
    have hmain : T.main = s.threads.own.commit.main := by rw [hT]; rfl
    exact hkeep (hmain ▸ (commit_main s.threads.own).1) (hmain ▸ commit_mWorkersSize s.threads.own) (hT ▸ rfl)
  | loadResults =>
    obtain ⟨rest, he, -⟩ := h.tasks.load (ht ▸ List.mem_cons_self)
    rw [ht] at he
    obtain rfl := (List.cons_eq_cons.1 he).2
    have hcall : s.threads.call .loadResults = s.threads.loadStep 0 id := if_neg h.threads.pos.ne'
    exact h.display_load hd (hT.trans hcall) hn hdraw

/-- **The screen keeps up.** -/
theorem display (h : AppOk b hardwareConcurrency s) (hi : InputOk s) (hd : Display b s) (hm : AppMove b s a s')
    (hp : s'.printed = none) (ha : s'.aborted = false) : Display b s' := by
  have hok := h.threads.quiet.ok
  cases hm with
  | worker hc hs =>
    obtain ⟨hmain, hmaster⟩ := hok.worker_master hs (fun he => hc ⟨he.1, inCallback_iff.2 he.2⟩)
    exact h.display_master hd hmain hmaster
  | wake hs =>
    obtain ⟨hmain, hmaster⟩ := ThreadsOk.wake_master hs
    exact h.display_master hd hmain hmaster
  | @main T _ _ hs =>
    rcases ThreadsOk.main_master hs h.threads.not_joining with ⟨ho, -, hmain⟩ | ⟨hr, hT⟩
    · exact display_threads hd hmain (ho ▸ .refl _) (by rw [ho])
    · obtain ⟨rest, he⟩ := h.tasks.loading hr
      have hload := h.display_load hd hT (l := rest) (fun hn => hr hn.2.1) (he ▸ id)
      rwa [← he] at hload
  | consumer _ _ => exact hd
  | callback hc ha hs => exact hd
  | called hc hn hE hT =>
    obtain ⟨hmain, -, hreader, hcommits⟩ := hok.called_master hT (inCallback_iff.1 hc)
    exact display_threads hd (by rw [hmain]) hreader (hreader.last (hok.worker 0).tx (.inl hcommits))
  | round _ ht _ =>
    refine hd.same rfl rfl (sameView_seen rfl rfl rfl) (by simp [ht]) (fun hn => ?_)
    obtain ⟨⟨todo', he⟩, -⟩ := hn
    cases ht.symm.trans he
  | leave _ _ _ hs =>
    obtain ⟨lines, rfl⟩ := leave_eq hs
    cases hp
  | destroy hp' => exact absurd hp (printed_ne_none hp')
  | @signals todo _ ht =>
    rcases processSignals_cases { s with todo } with he | he | he <;> rw [he]
    · exact nofun
    · exact fun _ => .inr (.inr (.inl List.mem_cons_self))
    · exact display_next (l := []) hd ht rfl nofun nofun rfl rfl rfl
  | consume _ ht _ => exact display_next (l := [.call .loadResults, .loaded]) hd ht rfl nofun nofun rfl rfl rfl
  | @call c todo T _ ht hs => exact h.display_call hi hd ht hs
  | @loaded todo _ ht =>
    cases hnew : s.loadedNew with
    | true => exact fun _ => .inr (.inr (.inl List.mem_cons_self))
    | false =>
      refine hd.same rfl rfl (sameView_seen rfl rfl rfl) (fun hm => ?_) (fun hn => ?_)
      · rw [ht] at hm
        exact (List.mem_cons.1 hm).resolve_left nofun
      · rw [h.loadedNew_eq, hn.2.2] at hnew
        cases hnew
  | redraw hf ht hs => exact fun _ => .inl (redraw_shown (sameView_fzx hok (ThreadsOk.not_busy hf.busy).2) hs)
  | select _ ht _ _ => exact display_next hd ht rfl nofun nofun rfl rfl rfl
  | interrupt _ ht => exact display_next (l := [.signals]) hd ht rfl nofun nofun rfl rfl rfl
  | @keys ks todo _ ht =>
    intro hr
    have hstatus := (readKeys_read s.fzx ks s.app false).status
    right; right; left
    refine List.mem_append_left _ ?_
    unfold TermApp.KeysOut.todo
    split
    · rename_i he
      rw [if_pos he] at hstatus
      exact absurd hr hstatus
    · exact List.mem_append_right _ List.mem_cons_self
  | @input r todo _ _ ht hr hout =>
    obtain rfl := readInput_of_some hi hr hout
    cases r with
    | error => exact display_next (l := []) hd ht rfl nofun nofun rfl rfl (List.append_nil _)
    | _ => exact fun _ => .inr (.inr (.inl (List.mem_append_left _ (List.mem_append_right _ List.mem_cons_self))))
  | abort => cases ha
  | quitSignal => exact hd
  | resize => exact hd

end AppOk

/-! ## The size -/

/-- The size of the terminal is the one last asked for, or a signal says that it changed. -/
def Sized (s : App) : Prop := s.gResizeSignal = false → s.app.mTTY.mWidth = s.winsize.1 ∧ s.app.mTTY.mHeight = s.winsize.2

theorem redraw_size {b : Build} {fzx : Pool} {t t' : TermApp} (hs : t.redraw b fzx = some t') :
    t'.mTTY.mWidth = t.mTTY.mWidth ∧ t'.mTTY.mHeight = t.mTTY.mHeight := by
  unfold TermApp.redraw at hs
  split at hs
  · cases hs
    exact ⟨rfl, rfl⟩
  · obtain ⟨bytes, -, rfl⟩ := Option.map_eq_some_iff.1 hs
    exact ⟨rfl, rfl⟩

theorem Sized.step {b : Build} {s s' : App} {a : App.Action} (h : Sized s) (hm : AppMove b s a s') : Sized s' := by
  unfold Sized at *
  cases hm with
  | leave _ _ _ hs =>
    obtain ⟨lines, rfl⟩ := leave_eq hs
    exact h
  | @signals todo _ ht =>
    rcases processSignals_cases { s with todo } with he | he | he <;> rw [he]
    · exact h
    · exact fun _ => ⟨rfl, rfl⟩
    · exact h
  | redraw _ _ hs =>
    obtain ⟨hw, hh⟩ := redraw_size hs
    intro hr
    dsimp only
    rw [hw, hh]
    exact h hr
  | @keys ks todo _ _ =>
    intro hr
    dsimp only
    rw [(readKeys_read s.fzx ks s.app false).kept.mTTY]
    exact h hr
  | input _ _ _ hout =>
    intro hr
    dsimp only
    rw [(processInput_keeps hout).mTTY]
    exact h hr
  | resize => exact nofun
  | _ => exact h

/-! ## Where it waits -/

/-- Nothing is left to do: the program runs and no signal is pending, the threads of the search sleep, and the main thread
waits for an event and finds none. -/
structure App.Waits (s : App) : Prop where
  aborted : s.aborted = false
  printed : s.printed = none
  gQuitSignal : s.gQuitSignal = false
  gResizeSignal : s.gResizeSignal = false
  todo : s.todo = [.select]
  pipe : s.mEventFd.pipe = 0
  threads : s.threads.AtRest

/-- The search is that of the line among the lines read, it is done, and the screen shows it. -/
structure App.Settled (b : Build) (s : App) : Prop where
  items : if s.app.mInput then
      LineScanner.Scanned '\n'.toUInt8 s.read s.app.mLineScanner.mBuf s.fzx.main.mItems
    else s.fzx.main.mItems = LineScanner.lines '\n'.toUInt8 s.read
  query : Searches s.fzx.main s.app.mLine.mLine
  processing : s.fzx.processing = false
  upToDate : UpToDate b s.fzx
  selection : Selects s.fzx.main.mItems.length s.app
  size : s.app.mTTY.mWidth = s.winsize.1 ∧ s.app.mTTY.mHeight = s.winsize.2
  shown : Untouched s.app s.read ∨ (4 ≤ s.app.mTTY.mHeight → 4 ≤ s.app.mTTY.mWidth →
    (∃ bytes, s.app.frame b s.fzx = some bytes ∧ s.app.mTTY.flushed = some bytes) ∧
      (s.app.mCursor < s.fzx.resultsSize ∨ s.fzx.resultsSize = 0))

/-- What holds of every run of the program, until it ends. -/
structure AppRuns (b : Build) (hardwareConcurrency : ℕ) (s : App) : Prop where
  ok : AppOk b hardwareConcurrency s
  input : InputOk s
  fresh : Fresh s
  display : Display b s
  size : Sized s

/-- The program has not ended. -/
structure App.Goes (s : App) : Prop where
  printed : s.printed = none
  aborted : s.aborted = false

/-- A program that has ended does not go on. -/
theorem App.Goes.of_step {b : Build} {s s' : App} {a : App.Action} (h : s'.Goes) (hs : s.step b a = some s') : s.Goes := by
  refine ⟨?_, aborted_of_step hs⟩
  have hp := h.printed
  cases appMove_cases hs with
  | worker _ _ => exact hp
  | wake _ => exact hp
  | main _ _ _ => exact hp
  | consumer _ _ => exact hp
  | callback _ _ _ => exact hp
  | called _ _ _ _ => exact hp
  | destroy _ _ _ _ _ => exact hp
  | quitSignal => exact hp
  | resize => exact hp
  | round hf _ _ => exact hf.printed
  | leave hf _ _ _ => exact hf.printed
  | signals hf _ => exact hf.printed
  | consume hf _ _ => exact hf.printed
  | call hf _ _ => exact hf.printed
  | loaded hf _ => exact hf.printed
  | redraw hf _ _ => exact hf.printed
  | select hf _ _ _ => exact hf.printed
  | interrupt hf _ => exact hf.printed
  | keys hf _ => exact hf.printed
  | input hf _ _ _ => exact hf.printed
  | abort hf _ _ _ => exact hf.printed

theorem AppRuns.step {b : Build} {hardwareConcurrency : ℕ} {s s' : App} {a : App.Action} (h : AppRuns b hardwareConcurrency s)
    (hs : s.step b a = some s') (hg : s'.Goes) : AppRuns b hardwareConcurrency s' :=
  have hm := appMove_cases hs
  ⟨h.ok.step hs hg.printed, h.ok.inputOk h.input hm hg.printed hg.aborted, h.ok.fresh h.fresh hm hg.printed,
    h.ok.display h.input h.display hm hg.printed hg.aborted, h.size.step hm⟩

theorem AppRuns.init (b : Build) (hardwareConcurrency : ℕ) (winsize : ℕ × ℕ) :
    AppRuns b hardwareConcurrency (App.init hardwareConcurrency winsize) where
  ok := .init b hardwareConcurrency winsize
  input := AppOk.inputOk_init hardwareConcurrency winsize
  fresh := .inl rfl
  display := fun _ => .inr (.inl ⟨rfl, rfl, rfl, rfl⟩)
  size := fun _ => ⟨rfl, rfl⟩

theorem run_appRuns {b : Build} {hardwareConcurrency : ℕ} {winsize : ℕ × ℕ} {as : List App.Action} {s : App}
    (hr : run (App.step b) (App.init hardwareConcurrency winsize) as = some s) (hg : s.Goes) :
    AppRuns b hardwareConcurrency s :=
  run_inv (fun s => s.Goes → AppRuns b hardwareConcurrency s) (fun _ _ _ h hs hg => (h (hg.of_step hs)).step hs hg) as _ s
    (fun _ => .init b hardwareConcurrency winsize) hr hg

namespace App.Waits

variable {b : Build} {hardwareConcurrency : ℕ} {s : App}

/-- The main thread has the last results. -/
theorem latest (hw : s.Waits) (h : AppRuns b hardwareConcurrency s) : (s.threads.workers 0).mOutput.Latest := by
  obtain ⟨hpc, -, -⟩ := hw.threads.asleep 0 h.ok.threads.pos
  -- Nobody is in the callback, so that the flag would have its byte in the pipe.
  have hidle : ∀ p, s.mEventFd.notifiers p = .idle := by
    intro p
    by_cases hp : p = 0
    · subst hp
      by_contra hn
      cases hpc.symm.trans (inCallback_iff.1 (h.ok.pipe.callback hn))
    · exact h.ok.pipe.others p hp
  rcases h.fresh with hl | ⟨hdue, -⟩ | hact | hload
  · exact hl
  · rcases hdue with ⟨he, -⟩ | he <;> cases hpc.symm.trans he
  · have howed : EventFd.owed s.mEventFd.mMutex s.mEventFd.notifiers = 0 := by
      unfold EventFd.owed
      cases s.mEventFd.mMutex with
      | none => rfl
      | some p =>
        rw [Option.elim_some, hidle p]
        rfl
    have hbytes := h.ok.pipe.inv.bytes
    rw [hw.pipe, howed, hact, Bool.toNat_true] at hbytes
    omega
  · rw [hw.todo] at hload
    cases List.mem_singleton.1 hload

/-- What is committed is what was loaded. -/
theorem loadResults_abs (hw : s.Waits) (h : AppRuns b hardwareConcurrency s) :
    s.threads.abs.call .loadResults = s.threads.abs := by
  have hok := h.ok.threads.quiet.ok
  have hload : (s.threads.abs.workers 0).mOutput.load = (s.threads.abs.workers 0).mOutput :=
    Tx.output_load_of_latest (hok.worker 0).tx (ThreadsOk.not_busy hw.threads.busy).2 (hw.latest h)
  have hpos : s.threads.abs.main.mWorkersSize ≠ 0 := h.ok.threads.pos.ne'
  change Pool.loadResults _ = _
  unfold Pool.loadResults
  rw [if_neg hpos, hload]
  unfold Pool.setWorker
  rw [Function.update_eq_self]

end App.Waits

/-- **Where the program waits everything was done.** -/
theorem AppRuns.settled {b : Build} {hardwareConcurrency : ℕ} {s : App} (h : AppRuns b hardwareConcurrency s) (hw : s.Waits)
    (hn : s.fzx.main.mItems.length < 2 ^ 32) : s.Settled b := by
  have hok := h.ok.threads.quiet.ok
  have hnone : pushes s.todo = [] := by rw [hw.todo]; rfl
  have hcommitted : s.threads.main.mJob.mItems.length = s.threads.main.mItems.length := by
    by_contra hne
    have hm := h.input.commits hne
    rw [hw.todo] at hm
    cases List.mem_singleton.1 hm
  have hrunning : s.app.mStatus = .running := h.ok.tasks.select (hw.todo ▸ List.mem_cons_self)
  -- The pool is at rest, and what it shows is what it would load.
  obtain ⟨hl, hc, hqs⟩ := h.ok.threads.content
  have hrest : AtRest s.threads.abs :=
    h.ok.threads.quiet.quiet.atRest_iff.1 (hok.stuck_abs (b := b) (h.ok.threads.quiet.stuck_iff.2 hw.threads))
  obtain ⟨hproc, hup⟩ := hrest.upToDate hl hc hqs hcommitted hn
  rw [hw.loadResults_abs h] at hproc hup
  have hshown := sameShown_abs hw.threads.busy
  have hview := sameView_fzx hok (ThreadsOk.not_busy hw.threads.busy).2
  refine ⟨?_, ?_, hshown.processing.trans hproc, hshown.upToDate hup, h.input.selects, h.size hw.gResizeSignal, ?_⟩
  · have hitems := h.input.items
    unfold Collected at hitems
    rw [hnone, List.append_nil] at hitems
    split at hitems
    · rename_i hin
      rw [if_pos hin]
      exact hitems
    · rename_i hin
      rw [if_neg hin]
      exact hitems.1.symm
  · refine (h.input.query hrunning).resolve_right (fun hm => ?_)
    rw [hw.todo] at hm
    cases List.mem_singleton.1 hm
  · rcases h.display hrunning with hs | hu | hd | ⟨⟨todo, he⟩, -⟩
    · unfold Shown at hs
      rw [hview.frame, hview.resultsSize] at hs
      exact .inr hs
    · exact .inl hu
    · rw [hw.todo] at hd
      cases List.mem_singleton.1 hd
    · cases hw.todo.symm.trans he

/-- **Where the program waits, its screen shows the search**: in every state of every run, with any keys, input, signals
and sizes and any order of the threads, where no signal is pending, the threads sleep and the main thread finds nothing to
do. -/
theorem app_shows (b : Build) (hardwareConcurrency : ℕ) (winsize : ℕ × ℕ) (as : List App.Action) (s : App)
    (hrun : run (App.step b) (App.init hardwareConcurrency winsize) as = some s) (hw : s.Waits)
    (hn : s.fzx.main.mItems.length < 2 ^ 32) : s.Settled b :=
  (run_appRuns hrun ⟨hw.printed, hw.aborted⟩).settled hw hn

namespace App

/-- Each action as often as its number says. -/
def repeated (l : List (ℕ × App.Action)) : List App.Action := l.flatMap (fun p => List.replicate p.1 p.2)

def sampleInput : List App.Action :=
  repeated [(2, .main), (4, .worker 0), (4, .worker 1), (1, .select false true), (1, .input (.chunk [98, 10])), (14, .main),
    (17, .worker 0), (12, .worker 1), (13, .worker 0), (4, .worker 1), (1, .select false false), (10, .main)]

def sampleKeys : List App.Action :=
  repeated [(1, .select true false), (1, .keys [39, 98]), (13, .main), (21, .worker 0), (13, .worker 1), (22, .worker 0),
    (4, .worker 1), (1, .select false false), (10, .main)]

theorem sample_isSome :
    (run (App.step .scalar) (App.init 2 (10, 6)) (sampleInput ++ sampleKeys)).isSome = true := by decide +kernel

/-- A line was read and then searched. -/
def sample : App := (run (App.step .scalar) (App.init 2 (10, 6)) (sampleInput ++ sampleKeys)).get sample_isSome

theorem sample_run : run (App.step .scalar) (App.init 2 (10, 6)) (sampleInput ++ sampleKeys) = some sample :=
  (Option.some_get sample_isSome).symm

theorem sample_atRest : sample.threads.AtRest := ⟨by decide +kernel, by decide +kernel⟩

theorem sample_waits : sample.Waits :=
  ⟨by decide +kernel, by decide +kernel, by decide +kernel, by decide +kernel, by decide +kernel, by decide +kernel,
    sample_atRest⟩

theorem sample_items : sample.fzx.main.mItems.length < 2 ^ 32 := by decide +kernel

end App

theorem app_shows_sample : App.sample.fzx.main.mItems.length < 2 ^ 32 ∧ App.sample.Settled .scalar :=
  ⟨App.sample_items, app_shows .scalar 2 (10, 6) _ App.sample App.sample_run App.sample_waits App.sample_items⟩

end Fzx
