import Fzx.PoolWork
import Fzx.PoolVisible
import Fzx.QueryScore
/-!
# PoolRest — the pool never hangs

Where no thread can go on, the main thread is idle and every worker waits with no event pending (`stuck_iff_atRest`),
after any calls in any order.  Two things could be in the way: a worker whose assertion about a score fails, which no
query without a NUL does (`matchItems_isSome`), and a join on a worker that was never told to stop, which `StopOk`
excludes.  With the bound on the steps this makes every call return and every search end (`stop_returns`,
`search_completes`).
-/
namespace Fzx

open Lib

/-! ## No assertion fails -/

/-- A matched item's score is packed, whatever the item's length. -/
theorem new_of_texts {b : Build} {q : Query} {s : Bytes} (i : UInt32) (hq : TextsOk q) (hm : q.match b s = true) :
    ∃ m, MatchedItem.new i (q.score b s) = some m := by
  have hsub := sublist_of_match hq hm
  have hne : ∀ t ∈ q.fuzzyTexts, t ≠ [] := fun t ht => (hsub t ht).1
  have hnan : q.score b s ≠ .nan := by
    intro h
    obtain ⟨⟨t, ht, hpos⟩, u, hu, hneg⟩ := (Query.score_eq_nan_iff b hne).1 h
    obtain ⟨hmax, hlen⟩ := (score_eq_posInf_iff (hne t ht)).1 hpos
    have hs : s ≠ [] := fun he => hne t ht (List.eq_nil_of_length_eq_zero (by rw [hlen, he]; rfl))
    rcases (score_eq_negInf_iff (hne u hu) hs).1 hneg with hlong | ⟨-, hno⟩
    · omega
    · exact hno (hsub u hu).2
  cases h : q.score b s with
  | nan => exact absurd h hnan
  | negInf => exact ⟨_, rfl⟩
  | posInf => exact ⟨_, rfl⟩
  | fin v =>
    obtain ⟨h1, h2⟩ := Query.score_fin_bounds b hne h
    rw [MatchedItem.new, MatchedItem.hiHalf, if_pos ⟨by linarith, by linarith⟩]
    exact ⟨_, rfl⟩

theorem matchItems_isSome {b : Build} {items : List Bytes} {q : Query} (hq : TextsOk q) :
    ∀ (is : List ℕ) (out : List MatchedItem), (matchItems b items q is out).isSome = true
  | [], _ => rfl
  | i :: is, out => by
    have hstep : ∃ out', matchItem b items q out i = some out' := by
      unfold matchItem
      simp only
      split
      · rename_i hm
        obtain ⟨m, hm⟩ := new_of_texts (UInt32.ofNat i) hq hm
        rw [hm]
        exact ⟨_, rfl⟩
      · exact ⟨_, rfl⟩
    obtain ⟨out', he⟩ := hstep
    unfold matchItems
    rw [List.foldlM_cons, he]
    exact matchItems_isSome hq is out'

/-- The strings set as a query have no NUL. -/
def Pool.Action.NulFree : Pool.Action → Prop
  | .call (.setQuery query) => (0 : UInt8) ∉ query
  | _ => True

/-- The texts of all queries are as `parse` makes them from such strings. -/
def QueriesOk (m : Main) : Prop := ∀ J ∈ m.history, ∀ q, J.mQuery = some q → TextsOk q.val

theorem commit_mQuery (s : Pool) : s.commit.main.mQuery = s.main.mQuery := by
  grind [Pool.commit, Pool.renewQueue, Pool.setJob]

theorem call_textsOk {s : Pool} {c : Call} (hc : (Pool.Action.call c).NulFree)
    (h : ∀ q, s.main.mQuery = some q → TextsOk q.val) : ∀ q, (s.call c).main.mQuery = some q → TextsOk q.val := by
  cases c with
  | setThreads threads => exact h
  | start => rwa [show (s.call .start).main.mQuery = s.main.mQuery from (start_keeps s).mQuery]
  | stop => rwa [show (s.call .stop).main.mQuery = s.main.mQuery from (stop_keeps s).mQuery]
  | pushItem str => rwa [show (s.call (.pushItem str)).main.mQuery = s.main.mQuery from (pushItem_quiet s str).mQuery]
  | commit => rwa [show (s.call .commit).main.mQuery = s.main.mQuery from commit_mQuery s]
  | loadResults => rwa [show (s.call .loadResults).main.mQuery = s.main.mQuery from (loadResults_keeps s).mQuery]
  | setQuery query =>
    change ∀ q, (s.setQuery query).main.mQuery = some q → TextsOk q.val
    unfold Pool.setQuery
    simp only
    split
    · exact h
    · rw [commit_mQuery]
      unfold Pool.withQuery
      split
      · intro q hq
        cases hq
        exact textsOk_parse hc
      · exact nofun

theorem QueriesOk.step {b : Build} {s s' : Pool} {a : Pool.Action} (hr : RunOk s) (h : QueriesOk s.main) (ha : a.NulFree)
    (hs : s.step b a = some s') : QueriesOk s'.main := by
  rcases step_call_or_main hr.size hs with ⟨c, rfl, rfl⟩ | he
  · rcases call_cases hr.jobs c with hk | hn
    · unfold QueriesOk Main.history
      rw [hk.jobs]
      exact h
    · intro J hJ q hq
      rw [hn.history, List.mem_append, List.mem_singleton] at hJ
      rcases hJ with hJ | rfl
      · exact h J hJ q hq
      · rw [← hn.ok.query] at hq
        exact call_textsOk ha (fun q hq => h _ hr.jobs.current_mem q (hr.jobs.query ▸ hq)) q hq
  · rw [he]
    exact h

/-! ## Told to stop -/

def WorkerPc.sawStop : WorkerPc → Bool
  | .woken ev | .got ev => ev.kStop
  | .stopped => true
  | _ => false

/-- The worker has stopped, or will as soon as it looks at its events. -/
def Worker.Halts (W : Worker) : Prop := W.mEvents.kStop = true ∨ W.pc.sawStop = true

variable {D : ℕ → Prop}

/-- `D` are the workers that died. -/
structure StopOk (D : ℕ → Prop) (s : Pool) : Prop where
  runs : s.main.mRunning = true → ∀ w, ¬ D w → (s.workers w).Runs
  stopping : ∀ k, s.main.pc = .stopping k → ∀ w < k, (s.workers w).Halts
  joining : ∀ k, s.main.pc = .joining k → ∀ w < s.main.mWorkersSize, (s.workers w).Halts
  joined : ∀ k, s.main.pc = .joining k → ∀ w < k, (s.workers w).pc = .stopped
  gone : s.main.mRunning = false → (∀ k, s.main.pc ≠ .stopping k) → (∀ k, s.main.pc ≠ .joining k) →
    s.main.mWorkersSize = 0

theorem Touched.halts {W W' : Worker} (ht : Touched W W') (h : W.Halts) : W'.Halts := by
  cases ht <;> exact h

theorem Worker.Halts.goto {W : Worker} (h : W.Halts) (hpc : W.pc.sawStop = false) (pc : WorkerPc) : (W.goto pc).Halts :=
  h.elim .inl (fun h => by rw [hpc] at h; cases h)

theorem halts_react {W : Worker} {mJob : Job} {ev : EventSet} {goOn : Worker → Worker} (h : W.Halts)
    (hpc : W.pc.sawStop = ev.kStop) (hgo : ∀ W : Worker, (goOn W).mEvents = W.mEvents) :
    (W.react mJob ev goOn).Halts := by
  unfold Worker.react
  by_cases hs : ev.kStop = true
  · rw [if_pos hs]
    exact .inr rfl
  · have hev : W.mEvents.kStop = true := h.elim id (fun h => absurd (hpc ▸ h) hs)
    rw [if_neg hs]
    left
    split
    · change (if (W.loadJob mJob).2 then (W.loadJob mJob).1.startMatch else goOn (W.loadJob mJob).1).mEvents.kStop = true
      split
      · exact hev
      · rw [hgo]
        exact hev
    · rw [hgo]
      exact hev

theorem Own.halts {b : Build} {s : Pool} {back : Results} {W W' : Worker} (h : W.Halts) (ho : Own b s back W W') :
    W'.Halts := by
  have hsaw : ∀ {pc : WorkerPc}, W.pc = pc → pc.sawStop = false → W.mEvents.kStop = true := by
    intro pc hpc hf
    rcases h with h | h
    · exact h
    · rw [hpc, hf] at h
      cases h
  cases ho with
  | wake hpc => exact .inr (hsaw hpc rfl)
  | woken hpc =>
    refine halts_react h (by rw [hpc]; rfl) (fun W => ?_)
    unfold Worker.enterMerge
    rfl
  | chunk hpc _ _ => exact .inl (hsaw hpc rfl)
  | get hpc => exact .inr (hsaw hpc rfl)
  | got hpc => exact halts_react h (by rw [hpc]; rfl) (fun _ => rfl)
  | skip hpc _ _ => exact .inl (hsaw hpc rfl)
  | mergeEnd hpc _ => exact .inl (hsaw hpc rfl)
  | merging hpc =>
    left
    rw [(mergeChild_keeps _ _ _).2.1]
    exact hsaw hpc rfl
  | already hpc _ => exact .inl (hsaw hpc rfl)
  | publish hpc _ => exact .inl (hsaw hpc rfl)

theorem SelfStep.halts {b : Build} {s : Pool} {back : Results} {W W' : Worker} (h : W.Halts)
    (hs : SelfStep b s back W W') : W'.Halts := by
  cases hs with
  | own ho => exact ho.halts h
  | chunk hpc _ _ => exact h.goto (by rw [hpc]; rfl) _
  | sort hpc =>
    have hset : (W.setItems (sortItems W.out.mItems)).Halts := h
    exact hset.goto (by change W.pc.sawStop = false; rw [hpc]; rfl) _
  | load hpc => exact h.goto (by rw [hpc]; rfl) _
  | notified hpc => exact h.goto (by rw [hpc]; rfl) _

theorem WorkerStep.halts {b : Build} {s s' : Pool} {w : ℕ} {back : Results} (hs : WorkerStep b s w back s') {u : ℕ}
    (h : (s.workers u).Halts) : (s'.workers u).Halts := by
  by_cases hu : u = w
  · subst hu
    exact hs.self.halts h
  · exact (hs.touched hu).halts h

/-- A thread that has ended takes no step. -/
theorem WorkerStep.stopped {b : Build} {s s' : Pool} {w : ℕ} {back : Results} (hs : WorkerStep b s w back s') {u : ℕ}
    (h : (s.workers u).pc = .stopped) : (s'.workers u).pc = .stopped := by
  by_cases hu : u = w
  · subst hu
    exfalso
    cases hs with
    | own ho => cases ho <;> simp_all
    | _ => simp_all
  · rw [(hs.touched hu).pc]
    exact h

/-- Neither before nor after the step the main thread is in `stop`. -/
theorem StopOk.apart {s s' : Pool} (h : StopOk D s) (hr : s'.main.mRunning = s.main.mRunning)
    (hn : s'.main.mWorkersSize = s.main.mWorkersSize) (hs : ∀ k, s.main.pc ≠ .stopping k) (hj : ∀ k, s.main.pc ≠ .joining k)
    (hs' : ∀ k, s'.main.pc ≠ .stopping k) (hj' : ∀ k, s'.main.pc ≠ .joining k)
    (ht : ∀ w, Touched (s.workers w) (s'.workers w)) : StopOk D s' where
  runs := fun hrun w hw => (ht w).runs (h.runs (hr ▸ hrun) w hw)
  stopping := fun k hk => absurd hk (hs' k)
  joining := fun k hk => absurd hk (hj' k)
  joined := fun k hk => absurd hk (hj' k)
  gone := fun hrun _ _ => hn.trans (h.gone (hr ▸ hrun) hs hj)

theorem StopOk.call {s : Pool} (hj : JobsOk s.main) (hpc : s.main.pc = .idle) (h : StopOk D s) (c : Call) :
    StopOk D (s.call c) := by
  have hs : ∀ k, s.main.pc ≠ .stopping k := fun k hk => by cases hpc.symm.trans hk
  have hjn : ∀ k, s.main.pc ≠ .joining k := fun k hk => by cases hpc.symm.trans hk
  have hquiet : ∀ s' : Pool, Quiet s s' → StopOk D s' := fun s' hq =>
    h.apart hq.mRunning hq.mWorkersSize hs hjn (hq.pc.symm ▸ hs) (hq.pc.symm ▸ hjn) (fun w => .of_eq (congrFun hq.workers w))
  have hnew : ∀ s' : Pool, NewJob s s' → StopOk D s' := fun s' hn =>
    h.apart hn.mRunning hn.mWorkersSize hs hjn (by simp [hn.pc]) (by simp [hn.pc]) (fun w => .of_eq (congrFun hn.workers w))
  cases c with
  | setThreads threads => exact hquiet _ (setThreads_quiet s threads)
  | start =>
    change StopOk D s.start
    unfold Pool.start
    split
    · exact h
    · exact ⟨fun _ _ _ => ⟨rfl, trivial⟩, fun k hk => absurd hk (hs k), fun k hk => absurd hk (hjn k),
        fun k hk => absurd hk (hjn k), fun hr => (by cases hr)⟩
  | stop =>
    change StopOk D s.stop
    unfold Pool.stop
    split
    · exact h
    · refine ⟨fun hr => (by cases hr), fun k hk w hw => ?_, nofun, nofun, fun _ h0 => absurd rfl (h0 0)⟩
      cases hk
      exact absurd hw (Nat.not_lt_zero w)
  | pushItem str => exact hquiet _ (pushItem_quiet s str)
  | setQuery query => exact (setQuery_quiet_or_newJob hj query).elim (hquiet _) (hnew _)
  | commit => exact (commit_quiet_or_newJob hj).elim (hquiet _) (hnew _)
  | loadResults =>
    change StopOk D s.loadResults
    unfold Pool.loadResults
    split
    · exact h
    · exact h.apart rfl rfl hs hjn hs hjn (touched_setWorker .loaded)

theorem StopOk.mainStep {s s' : Pool} (hr : RunOk s) (h : StopOk D s) (hs : s.mainStep = some s') : StopOk D s' := by
  rcases mainStep_cases hs with ⟨k, hpc, _, rfl⟩ | ⟨k, hpc, rfl⟩ | hs
  · exact h.apart rfl rfl (by simp [hpc]) (by simp [hpc]) nofun nofun (touched_setWorker .job)
  · exact h.apart rfl rfl (by simp [hpc]) (by simp [hpc]) nofun nofun (fun _ => .same)
  · have hstop : s.main.mRunning = false := by
      refine Bool.eq_false_iff.2 (fun hrun => ?_)
      cases hs with
      | post hpc _ => exact hr.stopping _ hrun hpc
      | posted hpc _ => exact hr.stopping _ hrun hpc
      | join hpc _ _ => exact hr.joining _ hrun hpc
      | joined hpc _ => exact hr.joining _ hrun hpc
    have hno : ∀ {P : Prop}, s.main.mRunning = true → P := fun hrun => by rw [hstop] at hrun; cases hrun
    cases hs with
    | @post k hpc hk =>
      refine ⟨hno, fun j hj w hw => ?_, nofun, nofun, fun _ h0 => absurd rfl (h0 (k + 1))⟩
      cases hj
      change ((s.setWorker k _).workers w).Halts
      by_cases he : w = k
      · subst he
        rw [setWorker_self]
        exact .inl rfl
      · rw [setWorker_other he]
        exact h.stopping k hpc w (by omega)
    | @posted k hpc hk =>
      refine ⟨hno, nofun, fun j _ w hw => h.stopping k hpc w (hw.trans_le hk), fun j hj w hw => ?_,
        fun _ _ h0 => absurd rfl (h0 0)⟩
      cases hj
      exact absurd hw (Nat.not_lt_zero w)
    | @join k hpc _ hw =>
      refine ⟨hno, nofun, fun _ _ => h.joining k hpc, fun j hj w hw' => ?_, fun _ _ h0 => absurd rfl (h0 (k + 1))⟩
      cases hj
      rcases Nat.lt_succ_iff_lt_or_eq.1 hw' with hlt | rfl
      · exact h.joined k hpc w hlt
      · exact hw
    | joined _ _ => exact ⟨hno, nofun, nofun, nofun, fun _ _ _ => rfl⟩

theorem StopOk.worker {b : Build} {s s' : Pool} {w : ℕ} {back : Results} (h : StopOk D s) (hs : WorkerStep b s w back s') :
    StopOk D s' where
  runs := by
    rw [hs.main]
    intro hr u hD
    by_cases hu : u = w
    · subst hu
      exact hs.self.runs (h.runs hr u hD)
    · exact (hs.touched hu).runs (h.runs hr u hD)
  stopping := by
    rw [hs.main]
    exact fun k hk u hu => hs.halts (h.stopping k hk u hu)
  joining := by
    rw [hs.main]
    exact fun k hk u hu => hs.halts (h.joining k hk u hu)
  joined := by
    rw [hs.main]
    exact fun k hk u hu => hs.stopped (h.joined k hk u hu)
  gone := by
    rw [hs.main]
    exact h.gone

/-! ## Runs -/

/-- What holds of every run whose queries have no NUL. -/
structure QuietOk (D : ℕ → Prop) (s : Pool) : Prop where
  rest : RestOk s
  queries : QueriesOk s.main
  stop : StopOk D s

theorem QuietOk.step {b : Build} {s s' : Pool} {a : Pool.Action} (h : QuietOk D s) (ha : a.NulFree)
    (hs : s.step b a = some s') : QuietOk D s' := by
  refine ⟨h.rest.step hs, h.queries.step h.rest.ok ha hs, ?_⟩
  have hr := h.rest.ok
  unfold Pool.step at hs
  cases a with
  | call c =>
    simp only at hs
    split at hs
    · rename_i hpc
      rw [← Option.some.inj hs]
      exact h.stop.call hr.jobs hpc c
    · cases hs
  | main => exact h.stop.mainStep hr hs
  | worker w back =>
    simp only at hs
    split at hs
    · rename_i hw
      exact h.stop.worker (workerStep_cases (hw.trans_le hr.size) hs)
    · cases hs

theorem quietOk_init (D : ℕ → Prop) (hardwareConcurrency : ℕ) : QuietOk D (Pool.init hardwareConcurrency) where
  rest := restOk_init _
  queries := by
    intro J hJ q hq
    rw [List.mem_singleton.1 hJ] at hq
    cases hq
  stop := ⟨nofun, nofun, nofun, nofun, fun _ _ _ => rfl⟩

theorem run_quietOk {b : Build} {hardwareConcurrency : ℕ} {as : List Pool.Action} {s : Pool} (hnul : ∀ a ∈ as, a.NulFree)
    (hr : run (Pool.step b) (Pool.init hardwareConcurrency) as = some s) : QuietOk D s :=
  run_inv_on _ (QuietOk D) (fun _ _ _ ha h hs => h.step ha hs) as _ s hnul (quietOk_init D _) hr

theorem Pool.Action.Internal.nulFree {a : Pool.Action} (h : a.Internal) : a.NulFree := by
  cases a with
  | call c => exact h.elim
  | main => trivial
  | worker w back => trivial

theorem Pool.Action.Internal.noStop {a : Pool.Action} (h : a.Internal) : a.NoStop := by
  cases a with
  | call c => exact h.elim
  | main => trivial
  | worker w back => trivial

theorem QuietOk.internal {b : Build} {s t : Pool} {bs : List Pool.Action} (h : QuietOk D s) (hint : ∀ a ∈ bs, a.Internal)
    (hr : run (Pool.step b) s bs = some t) : QuietOk D t :=
  run_inv_on _ (QuietOk D) (fun _ _ _ ha h hs => h.step ha.nulFree hs) bs s t hint h hr

/-! ## Where nothing moves -/

/-- A worker that cannot go on waits or has stopped. -/
theorem QuietOk.waits {b : Build} {s : Pool} (h : QuietOk D s) {w : ℕ} (hs : s.workerStep b w {} = none) :
    ((s.workers w).pc = .wait ∧ (s.workers w).mEvents.any = false) ∨ (s.workers w).pc = .stopped := by
  have hr := h.rest.ok
  have hquery := hr.query w
  have hjob := (hr.stamp w).job
  have hok := hr.jobs.ok _ hjob
  unfold Pool.workerStep at hs
  cases hpc : (s.workers w).pc with
  | wait =>
    simp only [hpc] at hs
    split at hs
    · cases hs
    · rename_i hev
      exact .inl ⟨rfl, Bool.eq_false_iff.2 hev⟩
  | stopped => exact .inr rfl
  | take =>
    simp only [hpc, Option.map_eq_none_iff] at hs
    have hsome := hok.queue
    rw [hquery (by rw [hpc]; trivial), hs] at hsome
    cases hsome
  | chunk start stop =>
    obtain ⟨q, hq⟩ := Option.isSome_iff_exists.1 (hquery (by rw [hpc]; trivial))
    simp only [hpc, hq, Option.bind_some, Option.map_eq_none_iff] at hs
    have hsome : (matchItems b (s.workers w).job.mItems q.val (List.range' start (stop - start))
        (s.workers w).out.mItems).isSome = true := matchItems_isSome (h.queries _ hjob q hq) _ _
    rw [hs] at hsome
    cases hsome
  | merge i =>
    simp only [hpc] at hs
    split at hs
    · split at hs <;> cases hs
    · cases hs
  | publish =>
    simp only [hpc] at hs
    split at hs <;> cases hs
  | notify =>
    simp only [hpc] at hs
    split at hs <;> cases hs
  | _ =>
    simp only [hpc] at hs
    cases hs

theorem QuietOk.main_idle {b : Build} {s : Pool} (h : QuietOk D s) (hs : Stuck (Pool.step b) Pool.Action.Internal s) :
    s.main.pc = .idle := by
  have hmain : s.mainStep = none := hs .main trivial
  have hworker : ∀ w < s.main.mWorkersSize, s.workerStep b w {} = none := by
    intro w hw
    have h0 := hs (.worker w {}) trivial
    unfold Pool.step at h0
    simpa only [hw, if_true] using h0
  unfold Pool.mainStep at hmain
  cases hpc : s.main.pc with
  | idle => rfl
  | posting k =>
    simp only [hpc] at hmain
    split at hmain <;> cases hmain
  | stopping k =>
    simp only [hpc] at hmain
    split at hmain <;> cases hmain
  | joining k =>
    simp only [hpc] at hmain
    split at hmain
    · rename_i hk
      split at hmain
      · cases hmain
      · -- The worker was told to stop, so it does not wait.
        rename_i hno
        obtain ⟨hw, hev⟩ := (h.waits (hworker k hk)).resolve_right hno
        simp only [EventSet.any, Bool.or_eq_false_iff] at hev
        rcases h.stop.joining k hpc k hk with hstop | hsaw
        · rw [hev.1.1] at hstop
          cases hstop
        · rw [hw] at hsaw
          cases hsaw
    · cases hmain

/-- **The pool stops moving only where every worker waits or has died**. -/
theorem QuietOk.stuck_iff {b : Build} {s : Pool} (h : QuietOk D s) : Stuck (Pool.step b) Pool.Action.Internal s ↔
    s.main.pc = .idle ∧ ∀ w < s.main.mWorkersSize,
      ((s.workers w).pc = .wait ∧ (s.workers w).mEvents.any = false) ∨ (D w ∧ (s.workers w).pc = .stopped) := by
  constructor
  · intro hs
    have hidle := h.main_idle hs
    refine ⟨hidle, fun w hw => ?_⟩
    have h0 := hs (.worker w {}) trivial
    unfold Pool.step at h0
    simp only [hw, if_true] at h0
    refine (h.waits h0).imp_right (fun hstopped => ⟨?_, hstopped⟩)
    have hrun : s.main.mRunning = true := by
      by_contra hno
      have hn := h.stop.gone (Bool.eq_false_iff.2 hno) (by simp [hidle]) (by simp [hidle])
      rw [hn] at hw
      exact absurd hw (Nat.not_lt_zero w)
    by_contra hD
    have hno := (h.stop.runs hrun w hD).pc
    rw [hstopped] at hno
    exact hno
  · rintro ⟨hidle, hwait⟩ a ha
    unfold Pool.step
    cases a with
    | call c => exact ha.elim
    | main =>
      unfold Pool.mainStep
      simp only [hidle]
    | worker w back =>
      simp only
      split
      · rename_i hw
        unfold Pool.workerStep
        rcases hwait w hw with ⟨hpc, hev⟩ | ⟨-, hpc⟩
        · simp only [hpc, hev, Bool.false_eq_true, if_false]
        · simp only [hpc]
      · rfl

theorem QuietOk.atRest_iff {b : Build} {s : Pool} (h : QuietOk (fun _ => False) s) :
    Stuck (Pool.step b) Pool.Action.Internal s ↔ AtRest s := by
  rw [h.stuck_iff]
  simp only [false_and, or_false]
  exact Iff.rfl

/-- **No deadlock**: in every run whose queries have no NUL, the threads can go on unless the pool is at rest, and whatever
they do they can come to rest. -/
theorem stuck_iff_atRest (b : Build) (hardwareConcurrency : ℕ) (as : List Pool.Action) (s : Pool)
    (hnul : ∀ a ∈ as, a.NulFree) (hrun : run (Pool.step b) (Pool.init hardwareConcurrency) as = some s) :
    (Stuck (Pool.step b) Pool.Action.Internal s ↔ AtRest s) ∧
      ∃ bs t, (∀ a ∈ bs, a.Internal) ∧ run (Pool.step b) s bs = some t ∧ AtRest t := by
  have h := run_quietOk (D := fun _ => False) hnul hrun
  have hlt : ∀ s a t, a.Internal → RestOk s → Pool.step b s a = some t → t.work < s.work :=
    fun _ _ _ ha h hs => h.work_lt ha hs
  obtain ⟨bs, t, hint, hgo, hstuck⟩ := exists_stuck (fun _ _ _ _ h hs => h.step hs) hlt s h.rest
  exact ⟨h.atRest_iff, bs, t, hint, hgo, (h.internal hint hgo).atRest_iff.1 hstuck⟩

theorem samplePre_nulFree : ∀ a ∈ samplePre, a.NulFree := by
  intro a ha
  simp only [samplePre, List.mem_cons, List.not_mem_nil, or_false] at ha
  rcases ha with rfl | rfl <;> trivial

theorem sampleQuery_nulFree : (Pool.Action.call (.setQuery [39, 97])).NulFree := by
  change (0 : UInt8) ∉ _
  decide

theorem sample_nulFree : ∀ a ∈ samplePre ++ .call .start :: samplePost, a.NulFree := by
  intro a ha
  simp only [samplePost, List.mem_append, List.mem_cons, List.mem_replicate] at ha
  rcases ha with ha | rfl | (((rfl | ⟨_, rfl⟩) | ⟨_, rfl⟩) | ⟨_, rfl⟩) | ⟨_, rfl⟩
  · exact samplePre_nulFree a ha
  · trivial
  · exact sampleQuery_nulFree
  all_goals trivial

theorem stuck_iff_atRest_sample : Stuck (Pool.step .scalar) Pool.Action.Internal sample :=
  (stuck_iff_atRest .scalar 2 _ sample sample_nulFree sample_run).1.2 sample_atRest

/-! ## What is shown -/

/-- The main thread and what it has loaded are the same. -/
structure SameShown (s s' : Pool) : Prop where
  main : s'.main = s.main
  readBuffer : (s'.workers 0).mOutput.readBuffer = (s.workers 0).mOutput.readBuffer

namespace SameShown

variable {s s' : Pool} (h : SameShown s s')
include h

theorem getResults : s'.getResults = s.getResults := by
  unfold Pool.getResults
  rw [h.main, h.readBuffer]

theorem queryResults : s'.queryResults = s.queryResults := by
  unfold Pool.queryResults
  rw [h.getResults]

theorem processing : s'.processing = s.processing := by
  unfold Pool.processing
  rw [h.getResults, h.main]

theorem resultsSize : s'.resultsSize = s.resultsSize := by
  unfold Pool.resultsSize
  rw [h.queryResults, h.main]

theorem getResult : s'.getResult = s.getResult := by
  funext i
  unfold Pool.getResult
  rw [h.queryResults, h.main]

theorem query : s'.query = s.query := by
  unfold Pool.query
  rw [h.queryResults]

theorem current {b : Build} (hc : Current b s) : Current b s' where
  loaded := by
    rw [h.main, h.readBuffer]
    exact hc.loaded
  index := by
    rw [h.main]
    exact hc.index

theorem upToDate {b : Build} (hu : UpToDate b s) : UpToDate b s' where
  query := by
    intro q hq
    rw [h.main] at hq
    obtain ⟨hquery, rows, hperm, hpair, hdef, hsize, hrows⟩ := hu.query q hq
    refine ⟨h.query.trans hquery, rows, ?_, hpair, ?_, h.resultsSize.trans hsize, ?_⟩
    · rw [h.main]
      exact hperm
    · rw [h.main]
      exact hdef
    · rw [h.getResult, h.main]
      exact hrows
  none := by
    rw [h.main]
    intro hq
    unfold ShowsItems
    rw [h.resultsSize, h.getResult, h.main]
    exact hu.none hq

end SameShown

/-! ## Every search ends -/

/-- Between calls the main thread changes nothing but where it is and the number of workers. -/
theorem internal_main {b : Build} {s s' : Pool} {a : Pool.Action} (hn : s.main.mWorkersSize ≤ 64) (ha : a.Internal)
    (hs : s.step b a = some s') : s'.main = { s.main with pc := s'.main.pc, mWorkersSize := s'.main.mWorkersSize } := by
  rcases step_call_or_main hn hs with ⟨c, rfl, _⟩ | he
  · exact ha.elim
  · exact he

/-- At rest worker 0 has committed the results of the current job. -/
theorem AtRest.stamped {b : Build} {s : Pool} (hr : AtRest s) (hl : Live s) (h : ContentInv b s) :
    Stamped (s.workers 0).mOutput.committed s.main.mJob := by
  by_cases hj : s.main.jobs = []
  · obtain ⟨J, hJ, hst, -⟩ := (h.buf 0 hl.pos).committed
    unfold Main.history at hJ
    rw [hj, List.mem_singleton] at hJ
    rw [hl.jobs.mJob_eq hj, ← hJ]
    exact hst
  · have hpub := hr.published h.wake (hl.jobs.tick_pos hj).ne' s.main.mWorkersSize 0 hl.pos (Nat.le_add_left _ _)
    rw [← hr.job_eq h.wake hl.pos]
    exact (h.wake.stamps.stamp 0).committed hpub

theorem loadResults_main (s : Pool) : s.loadResults.main = s.main := by
  unfold Pool.loadResults
  split <;> rfl

/-- **Loading the results at rest shows the search**, if all items are committed. -/
theorem AtRest.upToDate {b : Build} {s : Pool} (hr : AtRest s) (hl : Live s) (h : ContentInv b s) (hqs : Queries s.main)
    (hcommitted : s.main.mJob.mItems.length = s.main.mItems.length) (hn : s.main.mItems.length < 2 ^ 32) :
    (s.call .loadResults).processing = false ∧ UpToDate b (s.call .loadResults) := by
  have hst := hr.stamped hl h
  have he : s.call .loadResults = s.setWorker 0 { s.workers 0 with mOutput := (s.workers 0).mOutput.load } :=
    if_neg hl.pos.ne'
  have hquery : (s.workers 0).mOutput.committed.mQuery = s.main.mQuery := hst.query.trans hl.jobs.query.symm
  have hitems : (s.workers 0).mOutput.committed.mItemsTick = s.main.mItems.length :=
    (congrArg Prod.fst hst.tick).trans hcommitted
  have hstep : LiveStep b s (s.call .loadResults) := he ▸ .loadResults
  have hread : ((s.call .loadResults).workers 0).mOutput.readBuffer = (s.workers 0).mOutput.committed := by
    rw [he, setWorker_self]
    rfl
  have hmain : (s.call .loadResults).main = s.main := loadResults_main s
  have hproc : (s.call .loadResults).processing = false := by
    unfold Pool.processing Pool.getResults
    rw [hread, hmain, if_neg hl.pos.ne']
    cases hq : s.main.mQuery with
    | none => rfl
    | some q => simp [hitems, hquery, hq]
  refine ⟨hproc, upToDate_of_live (hstep.live hl) (hstep.contentInv hl h) (hmain.symm ▸ hqs) hproc ⟨?_, ?_⟩⟩
  · rw [hread, hmain, hquery]
    exact id
  · rw [hmain]
    exact fun _ _ i hi _ => hi.trans hn

/-- **Every search ends and shows its matches**: from every state of every run that starts the workers before the first
commit and whose queries have no NUL, whatever the workers do until no thread can go on, the results then loaded are those
of the query and the items, if the items are committed. -/
theorem search_completes (b : Build) (hardwareConcurrency : ℕ) (pre post bs : List Pool.Action) (s t : Pool)
    (hpre : ∀ a ∈ pre, a.Prepares) (hpost : ∀ a ∈ post, a.NoStop)
    (hnul : ∀ a ∈ pre ++ .call .start :: post, a.NulFree)
    (hrun : run (Pool.step b) (Pool.init hardwareConcurrency) (pre ++ .call .start :: post) = some s)
    (hcommitted : s.main.mJob.mItems.length = s.main.mItems.length) (hn : s.main.mItems.length < 2 ^ 32)
    (hint : ∀ a ∈ bs, a.Internal) (hgo : run (Pool.step b) s bs = some t)
    (hstuck : Stuck (Pool.step b) Pool.Action.Internal t) :
    ∃ u, t.step b (.call .loadResults) = some u ∧ u.main.mItems = s.main.mItems ∧ u.main.mQuery = s.main.mQuery ∧
      u.processing = false ∧ UpToDate b u := by
  have hq := run_quietOk (D := fun _ => False) hnul hrun
  have hrest : AtRest t := (hq.internal hint hgo).atRest_iff.1 hstuck
  have hpost' : ∀ a ∈ post ++ bs, a.NoStop := by
    intro a ha
    rcases List.mem_append.1 ha with ha | ha
    · exact hpost a ha
    · exact (hint a ha).noStop
  have hrun' : run (Pool.step b) (Pool.init hardwareConcurrency) (pre ++ .call .start :: (post ++ bs)) = some t := by
    rw [← List.cons_append, ← List.append_assoc]
    exact run_append_eq_some.2 ⟨s, hrun, hgo⟩
  obtain ⟨hl, hc⟩ := live_run (ContentInv b) (fun _ hp => hp.contentInv) (fun _ _ hl h hs => hs.contentInv hl h)
    hpre hpost' hrun'
  -- The threads leave the items, the query and the job alone.
  have hsame : ∀ u a v, a.Internal → RunOk u ∧ u.main.mItems = s.main.mItems ∧ u.main.mQuery = s.main.mQuery ∧
      u.main.mJob = s.main.mJob → Pool.step b u a = some v → RunOk v ∧ v.main.mItems = s.main.mItems ∧
      v.main.mQuery = s.main.mQuery ∧ v.main.mJob = s.main.mJob := by
    intro u a v ha h hs
    refine ⟨h.1.step hs, ?_⟩
    rw [internal_main h.1.size ha hs]
    exact h.2
  obtain ⟨-, hitems, hquery, hjob⟩ := run_inv_on _ _ hsame bs s t hint ⟨hq.rest.ok, rfl, rfl, rfl⟩ hgo
  have hcommitted' : t.main.mJob.mItems.length = t.main.mItems.length := by rw [hjob, hitems, hcommitted]
  obtain ⟨hproc, hup⟩ := hrest.upToDate hl hc (run_queries hrun') hcommitted' (hitems ▸ hn)
  have hmain : (t.call .loadResults).main = t.main := loadResults_main t
  exact ⟨_, step_call hrest.1 .loadResults, hmain ▸ hitems, hmain ▸ hquery, hproc, hup⟩

theorem search_completes_sample : ∃ u, sample.step .scalar (.call .loadResults) = some u ∧ u.processing = false ∧
    UpToDate .scalar u := by
  have hgo : run (Pool.step .scalar) sample [] = some sample := rfl
  obtain ⟨u, hu, -, -, hproc, hup⟩ := search_completes .scalar 2 samplePre samplePost [] sample sample samplePre_prepares
    samplePost_noStop sample_nulFree sample_run (by decide +kernel) (by decide +kernel) nofun hgo
    ((run_quietOk sample_nulFree sample_run).atRest_iff.2 sample_atRest)
  exact ⟨u, hu, hproc, hup⟩

end Fzx
