import Fzx.AppSafe
/-!
# AppRest — no deadlock in the program

The main thread waits in `pselect` or for its input, and nowhere else: a call of the search ends, the mutex of the pipe is
free for the one thread that takes it, the keys are read without waiting, and a task of the program's own is done.  After
its result is printed it stops the workers and joins them (`AppEnds`).  So where no thread can go on the workers sleep and
the main thread finds nothing in the pipe, or they are joined and the program has ended (`app_stuck_iff`).
-/
namespace Fzx

open Lib

/-! ## Where nothing moves -/

/-- The steps of the program's threads, with the event of its own that `pselect` can find and a read of no key. -/
def App.Action.Internal : App.Action → Prop
  | .main | .worker _ | .select false false | .keys [] => True
  | _ => False

/-- The program was aborted; or it has ended, and the workers are joined; or the workers sleep, and the main thread waits in
`pselect` with nothing in the pipe, or for its input. -/
inductive App.AtRest (s : App) : Prop where
  | aborted (ha : s.aborted = true)
  | ended (ha : s.aborted = false) (hp : s.printed.isSome = true) (hc : s.mEventFd.consumer = .idle)
      (hb : s.threads.busy = false) (hr : s.threads.main.mRunning = false) (hw : s.threads.main.mWorkersSize = 0)
  | waits {t : Task} {todo : List Task} (ha : s.aborted = false) (hp : s.printed = none)
      (hc : s.mEventFd.consumer = .idle) (hthreads : s.threads.AtRest) (ht : s.todo = t :: todo)
      (hout : t = .processInput ∨ t = .select ∧ s.mEventFd.pipe = 0)

/-! ## The end -/

/-- `stop` is to be called, or runs, or has joined every worker. -/
structure Stops (T : Threads) : Prop where
  running : T.main.mRunning = true → T.main.pc = .idle
  stopped : T.main.mRunning = false →
    (∃ k, T.main.pc = .stopping k) ∨ (∃ k, T.main.pc = .joining k) ∨ (T.main.pc = .idle ∧ T.main.mWorkersSize = 0)

namespace Stops

variable {b : Build} {T T' : Threads}

theorem of_main (h : Stops T) (hm : T'.main = T.main) : Stops T' := ⟨hm ▸ h.running, hm ▸ h.stopped⟩

/-- **A step of `stop`** keeps what it has done. -/
theorem main (h : Stops T) (hs : T.step b .main = some T') : Stops T' := by
  have hs : T.mainStep = some T' := hs
  unfold Threads.mainStep at hs
  cases hpc : T.main.pc with
  | idle =>
    simp only [hpc] at hs
    split at hs
    · cases hs
    · rw [← Option.some.inj hs, ThreadsOk.loadStep_eq]
      exact h.of_main rfl
  | posting k =>
    cases hr : T.main.mRunning with
    | true => cases hpc.symm.trans (h.running hr)
    | false => rcases h.stopped hr with ⟨_, he⟩ | ⟨_, he⟩ | ⟨he, -⟩ <;> cases hpc.symm.trans he
  | stopping k =>
    have hr : T.main.mRunning = false := by
      by_contra hr
      cases hpc.symm.trans (h.running (Bool.not_eq_false _ ▸ hr))
    simp only [hpc] at hs
    split at hs
    · obtain ⟨E, -, -, -, he⟩ := ThreadsOk.post_cases hs
      rw [he]
      split
      · exact ⟨fun hr' => absurd (hr.symm.trans hr') Bool.false_ne_true, fun _ => .inl ⟨k + 1, rfl⟩⟩
      · exact h.of_main rfl
    · rename_i hk
      simp only [Pool.mainStep, Threads.own, hpc, hk, if_false, Option.map_some, Option.some.injEq] at hs
      rw [← hs]
      exact ⟨fun hr' => absurd (hr.symm.trans hr') Bool.false_ne_true, fun _ => .inr (.inl ⟨0, rfl⟩)⟩
  | joining k =>
    have hr : T.main.mRunning = false := by
      by_contra hr
      cases hpc.symm.trans (h.running (Bool.not_eq_false _ ▸ hr))
    simp only [hpc] at hs
    obtain ⟨P, hP, rfl⟩ := Option.map_eq_some_iff.1 hs
    unfold Pool.mainStep at hP
    by_cases hk : k < T.main.mWorkersSize
    · by_cases hw : (T.workers k).own.pc = .stopped
      · simp only [Threads.own, hpc, hk, hw, if_true] at hP
        rw [← Option.some.inj hP]
        exact ⟨fun hr' => absurd (hr.symm.trans hr') Bool.false_ne_true, fun _ => .inr (.inl ⟨k + 1, rfl⟩)⟩
      · simp only [Threads.own, hpc, hk, hw, if_true, if_false] at hP
        cases hP
    · simp only [Threads.own, hpc, hk, if_false] at hP
      rw [← Option.some.inj hP]
      exact ⟨fun hr' => absurd (hr.symm.trans hr') Bool.false_ne_true, fun _ => .inr (.inr ⟨rfl, rfl⟩)⟩

end Stops

/-- What holds after the main loop. -/
structure AppEnds (s : App) : Prop where
  threads : ThreadsQuiet s.threads
  pipe : PipeOk s
  consumer : s.mEventFd.consumer = .idle
  stops : Stops s.threads

/-- The calls of the program never stop the threads. -/
theorem Started.mRunning {b : Build} {hardwareConcurrency : ℕ} {T : Threads} (h : Started b hardwareConcurrency T) :
    T.main.mRunning = true := h.content.1.running

theorem AppRuns.ends {b : Build} {hardwareConcurrency : ℕ} {s : App} (h : AppRuns b hardwareConcurrency s) (hf : s.Free)
    (printed : Option (List Bytes)) : AppEnds { s with printed } where
  threads := h.ok.threads.quiet
  pipe := ⟨h.ok.pipe.inv, h.ok.pipe.others, h.ok.pipe.callback⟩
  consumer := hf.consumer
  stops := ⟨fun _ => (ThreadsOk.not_busy hf.busy).1,
    fun hr => absurd (hr.symm.trans h.ok.threads.mRunning) Bool.false_ne_true⟩

/-- **After the main loop** the workers go on until they are stopped. -/
theorem AppEnds.step {b : Build} {s s' : App} {a : App.Action} (h : AppEnds s) (hp : s.printed.isSome = true)
    (hm : AppMove b s a s') : AppEnds s' := by
  have hfree : ∀ {P : Prop}, s.Free → P := fun hf => absurd hf.printed (printed_ne_none hp)
  have hok := h.threads.ok
  cases hm with
  | worker hc hs =>
    obtain ⟨hmain, hmaster⟩ := hok.worker_master hs (fun he => hc ⟨he.1, inCallback_iff.2 he.2⟩)
    exact ⟨h.threads.step (by exact trivial) hs, h.pipe.threads hmaster.notify, h.consumer, h.stops.of_main hmain⟩
  | wake hs =>
    obtain ⟨hmain, hmaster⟩ := ThreadsOk.wake_master hs
    exact ⟨h.threads.step (by exact trivial) hs, h.pipe.threads hmaster.notify, h.consumer, h.stops.of_main hmain⟩
  | main _ _ hs =>
    exact ⟨h.threads.step (by exact trivial) hs, h.pipe.threads (main_pc hs).trans, h.consumer, h.stops.main hs⟩
  | consumer hc _ => exact absurd h.consumer hc
  | callback hc ha hs =>
    exact ⟨h.threads, h.pipe.callback_step hc ha hs, (callback_cases ha hs).2.1.trans h.consumer, h.stops⟩
  | called hc hn hE hT =>
    have hmain := (hok.called_master hT (inCallback_iff.1 hc)).1
    refine ⟨h.threads.step (by exact trivial) hT, h.pipe.called hn hE, ?_, h.stops.of_main hmain⟩
    rcases EventFd.notifierStep_cases hE with ⟨hpc, -⟩ | ⟨hpc, -⟩ | ⟨hpc, -⟩ | ⟨_, _, -, rfl⟩
    · cases hn.symm.trans hpc
    · cases hn.symm.trans hpc
    · cases hn.symm.trans hpc
    · exact h.consumer
  | destroy _ _ _ hr hs =>
    have hstop : s.threads.own.stop.main = { s.threads.main with mRunning := false, pc := .stopping 0 } := by
      unfold Pool.stop
      rw [if_neg (by simp [Threads.own, hr])]
      rfl
    obtain rfl := call_eq hs
    refine ⟨h.threads.step (by exact trivial) hs, h.pipe.threads id, h.consumer, ?_⟩
    have hmain : (s.threads.call .stop).main = { s.threads.main with mRunning := false, pc := .stopping 0 } := hstop
    refine ⟨fun hr' => ?_, fun _ => .inl ⟨0, by rw [hmain]⟩⟩
    rw [hmain] at hr'
    cases hr'
  | quitSignal => exact ⟨h.threads, ⟨h.pipe.inv, h.pipe.others, h.pipe.callback⟩, h.consumer, h.stops⟩
  | resize => exact ⟨h.threads, ⟨h.pipe.inv, h.pipe.others, h.pipe.callback⟩, h.consumer, h.stops⟩
  | round hf _ _ => exact hfree hf
  | leave hf _ _ _ => exact hfree hf
  | signals hf _ => exact hfree hf
  | consume hf _ _ => exact hfree hf
  | call hf _ _ => exact hfree hf
  | loaded hf _ => exact hfree hf
  | redraw hf _ _ => exact hfree hf
  | select hf _ _ _ => exact hfree hf
  | interrupt hf _ => exact hfree hf
  | keys hf _ => exact hfree hf
  | input hf _ _ _ => exact hfree hf
  | abort hf _ _ _ => exact hfree hf

/-- Only the end of the main loop prints. -/
theorem AppMove.printed {b : Build} {s s' : App} {a : App.Action} (hm : AppMove b s a s') (hp : s.printed = none)
    (hp' : s'.printed.isSome = true) : s.Free ∧ ∃ lines, s' = { s with printed := some lines } := by
  have hsame : ∀ {P : Prop}, s.printed.isSome = true → P := fun h => absurd hp (printed_ne_none h)
  cases hm with
  | leave hf _ _ hs => exact ⟨hf, leave_eq hs⟩
  | @signals todo _ ht =>
    rcases processSignals_cases { s with todo } with he | he | he <;>
    · rw [he] at hp'
      exact hsame hp'
  | _ => exact hsame hp'

theorem run_appEnds {b : Build} {hardwareConcurrency : ℕ} {winsize : ℕ × ℕ} {as : List App.Action} {s : App}
    (hr : run (App.step b) (App.init hardwareConcurrency winsize) as = some s) (hp : s.printed.isSome = true) :
    AppEnds s := by
  refine (run_inv (fun s => (s.Goes → AppRuns b hardwareConcurrency s) ∧ (s.printed.isSome = true → AppEnds s))
    (fun s a s' h hs => ⟨fun hg => (h.1 (hg.of_step hs)).step hs hg, fun hp' => ?_⟩) as _ s
    ⟨fun _ => .init b hardwareConcurrency winsize, fun hp => by cases hp⟩ hr).2 hp
  by_cases hp : s.printed = none
  · obtain ⟨hf, lines, rfl⟩ := (appMove_cases hs).printed hp hp'
    exact (h.1 ⟨hp, aborted_of_step hs⟩).ends hf _
  · exact (h.2 (Option.isSome_iff_ne_none.2 hp)).step (Option.isSome_iff_ne_none.2 hp) (appMove_cases hs)

/-! ## What can go on -/

/-- **The callback is never blocked**: only worker 0 takes the mutex. -/
theorem PipeOk.callbackStep_isSome {b : Build} {s : App} (h : PipeOk s) (hpos : 0 < s.threads.main.mWorkersSize)
    (hc : s.inCallback = true) : s.callbackStep b ≠ none := by
  have hpc := inCallback_iff.1 hc
  unfold App.callbackStep
  cases hn : s.mEventFd.notifiers 0 with
  | idle => simp [EventFd.step, hn]
  | lock =>
    have hmutex : s.mEventFd.mMutex = none := by
      rw [Option.eq_none_iff_forall_not_mem]
      intro p hp
      have hholds := (h.inv.mutex p).2 hp
      by_cases h0 : p = 0
      · rw [h0, hn] at hholds
        cases hholds
      · rw [h.others p h0] at hholds
        cases hholds
    simp [EventFd.step, EventFd.notifierStep, hn, hmutex]
  | exchange => simp [EventFd.step, EventFd.notifierStep, hn]
  | write i pos => simp [EventFd.step, EventFd.writeStep, hn]
  | unlock pos thrown =>
    have hown : (s.threads.own.workers 0).pc = .notify := hpc
    have hT : ∃ T, s.threads.step b (.worker 0) = some T := by
      simp only [Threads.step, hpos, if_true, Threads.workerStep, hpc, Threads.ownStep, Pool.workerStep, hown]
      exact ⟨_, rfl⟩
    obtain ⟨T, hT⟩ := hT
    simp [EventFd.step, EventFd.notifierStep, hn, hT]

theorem consumerStep_ne_none {E : EventFd.Sys} (h : E.consumer ≠ .idle) : EventFd.consumerStep E ≠ none := by
  unfold EventFd.consumerStep
  cases hc : E.consumer with
  | idle => exact absurd hc h
  | exchange =>
    dsimp only
    split <;> exact Option.some_ne_none _
  | read pos => exact Option.some_ne_none _

section

variable {b : Build} {s : App}

theorem step_eq (ha : s.aborted = false) : s.step b .main = s.mainStep b ∧ (∀ w, s.step b (.worker w) = s.workerStep b w) ∧
    s.step b (.select false false) = s.select false false ∧ s.step b (.keys []) = s.keys [] := by
  have ha : ¬ s.aborted = true := by simp [ha]
  exact ⟨if_neg ha, fun _ => if_neg ha, if_neg ha, if_neg ha⟩

/-- Where nothing can go on, the threads of the search cannot either. -/
theorem threads_of_stuck (ha : s.aborted = false) (hq : ThreadsQuiet s.threads) (hpipe : PipeOk s)
    (hs : Stuck (App.step b) App.Action.Internal s) : s.mEventFd.consumer = .idle ∧ s.threads.AtRest := by
  obtain ⟨hmainStep, hworkerStep, -, -⟩ := step_eq (b := b) ha
  have hmain : s.mainStep b = none := hmainStep.symm.trans (hs .main trivial)
  have hconsumer : s.mEventFd.consumer = .idle := by
    by_contra hc
    rw [App.mainStep, if_pos hc, Option.map_eq_none_iff] at hmain
    exact consumerStep_ne_none hc hmain
  refine ⟨hconsumer, (hq.stuck_iff (b := b)).1 (fun a ha => ?_)⟩
  cases a with
  | call c => exact ha.elim
  | wake w => exact ha.elim
  | worker w =>
    have hstep : s.workerStep b w = none := (hworkerStep w).symm.trans (hs (.worker w) trivial)
    unfold App.workerStep at hstep
    split at hstep
    · rename_i hc
      obtain ⟨hpos, rfl, hc⟩ := hc
      exact absurd hstep (hpipe.callbackStep_isSome hpos hc)
    · exact Option.map_eq_none_iff.1 hstep
  | main =>
    by_cases hb : s.threads.busy = true
    · rwa [App.mainStep, if_neg (not_not.2 hconsumer), if_pos hb, Option.map_eq_none_iff] at hmain
    · obtain ⟨hpc, hr⟩ := ThreadsOk.not_busy (Bool.eq_false_iff.2 hb)
      simp only [Threads.step, Threads.mainStep, hpc, hr, if_true]

/-- A program that has printed its result joins its workers. -/
theorem AppEnds.atRest_of_stuck (h : AppEnds s) (ha : s.aborted = false) (hp : s.printed.isSome = true)
    (hs : Stuck (App.step b) App.Action.Internal s) : s.AtRest := by
  obtain ⟨hconsumer, hthreads⟩ := threads_of_stuck ha h.threads h.pipe hs
  have hmain : s.mainStep b = none := (step_eq ha).1.symm.trans (hs .main trivial)
  rw [App.mainStep, if_neg (not_not.2 hconsumer), if_neg (by simp [hthreads.busy]), if_pos hp] at hmain
  unfold App.destroy at hmain
  split at hmain
  · rw [Option.map_eq_none_iff] at hmain
    have hstop : s.threads.step b (.call .stop) = some (s.threads.call .stop) := if_neg (by simp [hthreads.busy])
    cases hstop.symm.trans hmain
  · rename_i hr
    have hr := Bool.eq_false_iff.2 hr
    have hpc := (ThreadsOk.not_busy hthreads.busy).1
    refine .ended ha hp hconsumer hthreads.busy hr ?_
    rcases h.stops.stopped hr with ⟨k, he⟩ | ⟨k, he⟩ | ⟨-, hw⟩
    · cases hpc.symm.trans he
    · cases hpc.symm.trans he
    · exact hw

/-- The main thread waits for what it has not got. -/
theorem AppRuns.waits_of_stuck {hardwareConcurrency : ℕ} (h : AppRuns b hardwareConcurrency s)
    (hn : s.fzx.main.mItems.length ≤ 2 ^ 32) (ha : s.aborted = false) (hf : s.Free)
    (hs : Stuck (App.step b) App.Action.Internal s) :
    ∃ t todo, s.todo = t :: todo ∧ (t = .processInput ∨ t = .select ∧ s.mEventFd.pipe = 0) := by
  obtain ⟨hmainStep, -, hselectStep, hkeysStep⟩ := step_eq (b := b) ha
  have hmain : s.mainStep b = none := hmainStep.symm.trans (hs .main trivial)
  cases ht : s.todo with
  | nil =>
    rw [mainStep_nil hf ht, h.leave] at hmain
    split at hmain <;> cases hmain
  | cons t todo =>
    refine ⟨t, todo, rfl, ?_⟩
    have hout : t.Outside := by
      by_contra hout
      rw [mainStep_cons hf ht] at hmain
      have hsome := h.perform_isSome hf hn hout todo
      rw [hmain] at hsome
      cases hsome
    cases t with
    | processInput => exact .inl rfl
    | processTTY =>
      have hstep : s.keys [] = none := hkeysStep.symm.trans (hs (.keys []) trivial)
      simp only [App.keys, ht] at hstep
      rw [if_pos (App.free_iff.2 hf)] at hstep
      cases hstep
    | select =>
      refine .inr ⟨rfl, ?_⟩
      by_contra hpipe
      have hstep : s.select false false = none := hselectStep.symm.trans (hs (.select false false) trivial)
      simp only [App.select, ht] at hstep
      rw [if_pos ⟨App.free_iff.2 hf, (fun hi => by cases hi), .inr (.inr (Nat.pos_of_ne_zero hpipe))⟩] at hstep
      cases hstep
    | _ => exact hout.elim

/-- The workers sleep, and the main thread has nothing to do. -/
theorem stuck_of_threads (ha : s.aborted = false) (hthreads : Stuck (Threads.step b) Threads.Action.Internal s.threads)
    (hcallback : ∀ w, ¬ (w < s.threads.main.mWorkersSize ∧ w = 0 ∧ s.inCallback = true)) (hmain : s.mainStep b = none)
    (hselect : s.select false false = none) (hkeys : s.keys [] = none) :
    Stuck (App.step b) App.Action.Internal s := by
  obtain ⟨hmainStep, hworkerStep, hselectStep, hkeysStep⟩ := step_eq (b := b) ha
  intro a ha
  cases a with
  | main => exact hmainStep.trans hmain
  | worker w =>
    refine (hworkerStep w).trans ?_
    rw [App.workerStep, if_neg (hcallback w), Option.map_eq_none_iff]
    exact hthreads (.worker w) trivial
  | select tty input =>
    cases tty <;> cases input <;> first | exact ha.elim | exact hselectStep.trans hselect
  | keys ks =>
    cases ks with
    | nil => exact hkeysStep.trans hkeys
    | cons _ _ => exact ha.elim
  | _ => exact ha.elim

/-- Where the main thread is not free there is nothing for it to read. -/
theorem select_of_printed (hp : s.printed.isSome = true) : s.select false false = none ∧ s.keys [] = none := by
  have hf : ¬ s.free = true := fun hf => printed_ne_none hp (App.free_iff.1 hf).printed
  constructor
  · unfold App.select
    split
    · rw [if_neg (fun h => hf h.1)]
    · rfl
  · unfold App.keys
    split
    · rw [if_neg hf]
    · rfl

/-- The threads that are joined take no step. -/
theorem threads_stuck_of_joined (hb : s.threads.busy = false) (hw : s.threads.main.mWorkersSize = 0) :
    Stuck (Threads.step b) Threads.Action.Internal s.threads := by
  obtain ⟨hpc, hr⟩ := ThreadsOk.not_busy hb
  intro a ha
  cases a with
  | call c => exact ha.elim
  | wake w => exact ha.elim
  | main => simp only [Threads.step, Threads.mainStep, hpc, hr, if_true]
  | worker w => exact if_neg (by rw [hw]; exact Nat.not_lt_zero w)

theorem App.AtRest.stuck (hr : s.AtRest) (hq : s.aborted = false → ThreadsQuiet s.threads) :
    Stuck (App.step b) App.Action.Internal s := by
  cases hr with
  | aborted ha => exact fun a _ => if_pos ha
  | ended ha hp hc hb hr hw =>
    obtain ⟨hselect, hkeys⟩ := select_of_printed hp
    refine stuck_of_threads ha (threads_stuck_of_joined hb hw) (fun w h => ?_) ?_ hselect hkeys
    · exact absurd h.1 (by rw [hw]; exact Nat.not_lt_zero w)
    · rw [App.mainStep, if_neg (not_not.2 hc), if_neg (by simp [hb]), if_pos hp]
      exact if_neg (by simp [hr])
  | @waits t todo ha hp hc hthreads ht hout =>
    have hf : s.Free := ⟨hp, hc, hthreads.busy⟩
    refine stuck_of_threads ha ((hq ha).stuck_iff.2 hthreads) (fun w h => ?_) ?_ ?_ ?_
    · cases (hthreads.asleep 0 (h.2.1 ▸ h.1)).1.symm.trans (inCallback_iff.1 h.2.2)
    · rw [mainStep_cons hf ht]
      rcases hout with rfl | ⟨rfl, -⟩ <;> rfl
    · unfold App.select
      rw [ht]
      rcases hout with rfl | ⟨rfl, hempty⟩
      · rfl
      · refine if_neg (fun h => ?_)
        simp [hempty] at h
    · unfold App.keys
      rw [ht]
      rcases hout with rfl | ⟨rfl, -⟩ <;> rfl

end

/-! ## No deadlock -/

/-- **No deadlock in the program**: in every run, neither the main thread nor a worker can go on exactly where the program
was aborted, or has ended with its workers joined, or every worker sleeps on its condition variable with no event in its
word and the main thread waits for input, or in `pselect` with nothing in the pipe. -/
theorem app_stuck_iff (b : Build) (hardwareConcurrency : ℕ) (winsize : ℕ × ℕ) (as : List App.Action) (s : App)
    (hrun : run (App.step b) (App.init hardwareConcurrency winsize) as = some s)
    (hn : s.fzx.main.mItems.length ≤ 2 ^ 32) : Stuck (App.step b) App.Action.Internal s ↔ s.AtRest := by
  by_cases ha : s.aborted = true
  · exact ⟨fun _ => .aborted ha, fun hr => hr.stuck (fun h => absurd (h.symm.trans ha) Bool.false_ne_true)⟩
  have ha := Bool.eq_false_iff.2 ha
  by_cases hp : s.printed.isSome = true
  · have h := run_appEnds hrun hp
    exact ⟨h.atRest_of_stuck ha hp, fun hr => hr.stuck (fun _ => h.threads)⟩
  · have hp := Option.not_isSome_iff_eq_none.1 hp
    have h := run_appRuns hrun ⟨hp, ha⟩
    refine ⟨fun hs => ?_, fun hr => hr.stuck (fun _ => h.ok.threads.quiet)⟩
    obtain ⟨hconsumer, hthreads⟩ := threads_of_stuck ha h.ok.threads.quiet h.ok.pipe hs
    obtain ⟨t, todo, ht, hout⟩ := h.waits_of_stuck hn ha ⟨hp, hconsumer, hthreads.busy⟩ hs
    exact .waits ha hp hconsumer hthreads ht hout

/-- The pool is asleep, and `pselect` waits. -/
theorem app_stuck_iff_sample : Stuck (App.step .scalar) App.Action.Internal App.sample :=
  have ht : App.sample.todo = [.select] := App.sample_waits.todo
  (app_stuck_iff .scalar 2 (10, 6) _ App.sample App.sample_run App.sample_items.le).2
    (.waits App.sample_waits.aborted App.sample_waits.printed (by decide +kernel) App.sample_atRest ht
      (.inr ⟨rfl, App.sample_waits.pipe⟩))

end Fzx
