import Fzx.PoolContent
import Fzx.PoolRuns
/-!
# PoolVisible — what the user is shown (fzx.cpp)

`resultsSize`, `getResult` and `query` read the results that were loaded last, together with the main thread's items.
Where `processing` says false and a query is set, they are the sorted matches of that query over all the items; where no
query is set, only if the loaded results are not those of a query that was cleared (`upToDate_of_processing`).
-/
namespace Fzx

open Lib

/-- As an exact number, like the scores. -/
def kScoreMultiplier : ℚ := 5 / 1000

def scaled : Flt ℚ → Flt ℚ
  | .fin v => .fin (v * kScoreMultiplier)
  | x => x

structure Result where
  mLine : Bytes := []
  mIndex : UInt32 := 0
  mScore : Flt ℚ := .fin 0

namespace Pool

def getResults (s : Pool) : Option Results :=
  if s.main.mWorkersSize = 0 then none else some (s.workers 0).mOutput.readBuffer

/-- `res != nullptr && res->mQuery` -/
def queryResults (s : Pool) : Option Results := s.getResults.filter (fun res => res.mQuery.isSome)

def resultsSize (s : Pool) : ℕ :=
  match s.queryResults with
  | some res => res.mItems.length
  | none => s.main.mItems.length

def getResult (s : Pool) (i : ℕ) : Result :=
  match s.queryResults with
  | some res =>
    match res.mItems[i]? with
    | some m => { mLine := s.main.mItems.getD m.index.toNat [], mIndex := m.index, mScore := scaled m.score }
    | none => {}
  | none =>
    match s.main.mItems[i]? with
    | some str => { mLine := str, mIndex := UInt32.ofNat i, mScore := .fin 0 }
    | none => {}

def query (s : Pool) : Option (Shared Query) := s.queryResults.bind (fun res => res.mQuery)

def processing (s : Pool) : Bool :=
  if s.main.mQuery.isNone then false
  else
    match s.getResults with
    | some res => decide (s.main.mItems.length ≠ res.mItemsTick) ||
        decide (s.main.mQuery.map Shared.addr ≠ res.mQuery.map Shared.addr)
    | none => false

end Pool

/-- The items that `q` matches are shown, each once and in the order of `operator<`. -/
def ShowsMatches (b : Build) (s : Pool) (q : Query) : Prop :=
  ∃ rows : List MatchedItem,
    rows.Perm ((List.range s.main.mItems.length).filterMap (matchedItem b s.main.mItems q)) ∧ rows.Pairwise (· < ·) ∧
    (∀ i < s.main.mItems.length, q.match b (s.main.mItems.getD i []) = true →
      (matchedItem b s.main.mItems q i).isSome = true) ∧
    s.resultsSize = rows.length ∧
    ∀ k m, rows[k]? = some m → ∃ i < s.main.mItems.length, matchedItem b s.main.mItems q i = some m ∧
      s.getResult k = { mLine := s.main.mItems.getD i [], mIndex := UInt32.ofNat i, mScore := scaled m.score }

/-- All items are shown as they are. -/
def ShowsItems (s : Pool) : Prop :=
  s.resultsSize = s.main.mItems.length ∧
    ∀ i < s.main.mItems.length, (s.getResult i).mLine = s.main.mItems.getD i [] ∧ (s.getResult i).mIndex = UInt32.ofNat i

structure UpToDate (b : Build) (s : Pool) : Prop where
  query : ∀ q, s.main.mQuery = some q → s.query = some q ∧ ShowsMatches b s q.val
  none : s.main.mQuery = none → ShowsItems s

/-- A query is set, or the loaded results are of none; and the indices of its matches fit into 32 bits. -/
structure Current (b : Build) (s : Pool) : Prop where
  loaded : s.main.mQuery = none → (s.workers 0).mOutput.readBuffer.mQuery = none
  index : ∀ q, s.main.mQuery = some q → ∀ i < s.main.mItems.length,
    q.val.match b (s.main.mItems.getD i []) = true → i < 2 ^ 32

/-! ## The queries of the jobs -/

/-- Jobs are about the first items, and a query's address is its own. -/
structure Queries (m : Main) : Prop where
  items : ∀ J ∈ m.history, J.mItems <+: m.mItems
  addrLt : ∀ J ∈ m.history, ∀ q, J.mQuery = some q → q.addr < m.nextQuery
  addr : ∀ J ∈ m.history, ∀ J' ∈ m.history, ∀ q q', J.mQuery = some q → J'.mQuery = some q' → q.addr = q'.addr → q = q'

theorem call_mQuery (s : Pool) (c : Call) : s.main.mItems <+: (s.call c).main.mItems ∧
    s.main.nextQuery ≤ (s.call c).main.nextQuery ∧ ((s.call c).main.mQuery = s.main.mQuery ∨
      ∀ q, (s.call c).main.mQuery = some q → q.addr = s.main.nextQuery ∧ q.addr < (s.call c).main.nextQuery) := by
  have hcommit : ∀ t : Pool, t.commit.main.mItems = t.main.mItems ∧ t.commit.main.nextQuery = t.main.nextQuery ∧
      t.commit.main.mQuery = t.main.mQuery := by
    intro t
    grind [Pool.commit, Pool.renewQueue, Pool.setJob]
  cases c with
  | setThreads threads => exact ⟨List.prefix_rfl, le_rfl, .inl rfl⟩
  | start => grind [Pool.call, Pool.start]
  | stop => grind [Pool.call, Pool.stop]
  | pushItem str => grind [Pool.call, Pool.pushItem]
  | setQuery query => grind [Pool.call, Pool.setQuery, Pool.withQuery]
  | commit => grind [Pool.call]
  | loadResults => grind [Pool.call, Pool.loadResults, Pool.setWorker]

theorem queries_init (hardwareConcurrency : ℕ) : Queries (Pool.init hardwareConcurrency).main := by
  have hinit : ∀ J ∈ (Pool.init hardwareConcurrency).main.history, J = {} := fun J hJ => List.mem_singleton.1 hJ
  refine ⟨fun J hJ => ?_, fun J hJ q hq => ?_, fun J hJ _ _ q _ hq => ?_⟩
  · rw [hinit J hJ]
    exact List.prefix_rfl
  · rw [hinit J hJ] at hq
    cases hq
  · rw [hinit J hJ] at hq
    cases hq

theorem Queries.call {s : Pool} (h : Queries s.main) (hj : JobsOk s.main) (c : Call) : Queries (s.call c).main := by
  obtain ⟨hitems, hnext, hquery⟩ := call_mQuery s c
  rcases call_cases hj c with hk | hn
  · have hh : (s.call c).main.history = s.main.history := by
      unfold Main.history
      rw [hk.jobs]
    refine ⟨?_, ?_, ?_⟩ <;> rw [hh]
    · exact fun J hJ => (h.items J hJ).trans hitems
    · exact fun J hJ q hq => (h.addrLt J hJ q hq).trans_le hnext
    · exact h.addr
  · -- The new job's query is that of the last job, or has a new address.
    have hnew : ∀ q, (s.call c).main.mJob.mQuery = some q → q.addr < (s.call c).main.nextQuery ∧
        ∀ J ∈ s.main.history, ∀ q', J.mQuery = some q' → q.addr = q'.addr → q = q' := by
      intro q hq
      rw [← hn.ok.query] at hq
      rcases hquery with he | hf
      · rw [he, hj.query] at hq
        exact ⟨(h.addrLt _ hj.current_mem q hq).trans_le hnext, fun J hJ q' hq' => h.addr _ hj.current_mem J hJ q q' hq hq'⟩
      · obtain ⟨ha, hlt⟩ := hf q hq
        refine ⟨hlt, fun J hJ q' hq' he => ?_⟩
        have hlt' := h.addrLt J hJ q' hq'
        omega
    refine ⟨fun J hJ => ?_, fun J hJ => ?_, fun J hJ J' hJ' q q' hq hq' he => ?_⟩
    · rw [hn.history, List.mem_append, List.mem_singleton] at hJ
      rcases hJ with hJ | rfl
      · exact (h.items J hJ).trans hitems
      · exact hn.ok.items
    · rw [hn.history, List.mem_append, List.mem_singleton] at hJ
      rcases hJ with hJ | rfl
      · exact fun q hq => (h.addrLt J hJ q hq).trans_le hnext
      · exact fun q hq => (hnew q hq).1
    · rw [hn.history, List.mem_append, List.mem_singleton] at hJ hJ'
      rcases hJ with hJ | rfl <;> rcases hJ' with hJ' | rfl
      · exact h.addr J hJ J' hJ' q q' hq hq' he
      · exact ((hnew q' hq').2 J hJ q hq he.symm).symm
      · exact (hnew q hq).2 J' hJ' q' hq' he
      · exact Option.some.inj (hq.symm.trans hq')

theorem run_queries {b : Build} {hardwareConcurrency : ℕ} {as : List Pool.Action} {s : Pool}
    (hr : run (Pool.step b) (Pool.init hardwareConcurrency) as = some s) : Queries s.main := by
  refine (run_inv (fun s => RunOk s ∧ Queries s.main) (fun s a s' h hs => ⟨h.1.step hs, ?_⟩) as _ s
    ⟨runOk_init _, queries_init _⟩ hr).2
  rcases step_call_or_main h.1.size hs with ⟨c, _, rfl⟩ | he
  · exact h.2.call h.1.jobs c
  · rw [he]
    exact ⟨h.2.items, h.2.addrLt, h.2.addr⟩

/-! ## Up to date -/

/-- Without results of a query the items are shown. -/
theorem showsItems_of_none {s : Pool} (h : s.queryResults = none) : ShowsItems s := by
  unfold ShowsItems Pool.resultsSize Pool.getResult
  simp only [h]
  refine ⟨trivial, fun i hi => ?_⟩
  rw [List.getElem?_eq_getElem hi, List.getD_eq_getElem _ _ hi]
  exact ⟨rfl, rfl⟩

theorem queryResults_eq_none {s : Pool} (h : (s.workers 0).mOutput.readBuffer.mQuery = none) : s.queryResults = none := by
  unfold Pool.queryResults Pool.getResults
  split
  · rfl
  · simp [h]

/-- **Results of the current items' matches are shown as such.** -/
theorem showsMatches_of_rows {b : Build} {s : Pool} {q : Query} {res : Results} (hres : s.queryResults = some res)
    (hrows : Rows b s.main.mItems q (List.range s.main.mItems.length) res.mItems) (hsorted : Sorted res.mItems)
    (hidx : ∀ i < s.main.mItems.length, q.match b (s.main.mItems.getD i []) = true → i < 2 ^ 32) : ShowsMatches b s q := by
  refine ⟨res.mItems, hrows.perm, hrows.strict hsorted hidx, fun i hi => hrows.defined i (List.mem_range.2 hi), ?_, ?_⟩
  · unfold Pool.resultsSize
    rw [hres]
  · intro k m hk
    have hm : m ∈ (List.range s.main.mItems.length).filterMap (matchedItem b s.main.mItems q) :=
      hrows.perm.mem_iff.1 (List.mem_of_getElem? hk)
    obtain ⟨i, hi, hmi⟩ := List.mem_filterMap.1 hm
    rw [List.mem_range] at hi
    refine ⟨i, hi, hmi, ?_⟩
    have hlt := hidx i hi (match_of_matchedItem hmi)
    have hindex : m.index = UInt32.ofNat i := by
      unfold matchedItem at hmi
      simp only at hmi
      split at hmi
      · exact MatchedItem.index_of_new hmi
      · cases hmi
    have hnat : (UInt32.ofNat i).toNat = i := UInt32.toNat_ofNat_of_lt' (by simpa using hlt)
    unfold Pool.getResult
    simp only [hres, hk, hindex, hnat]

/-- What `processing` compared. -/
theorem ticks_of_processing {s : Pool} {q : Shared Query} (hn : 0 < s.main.mWorkersSize) (hq : s.main.mQuery = some q)
    (h : s.processing = false) : (s.workers 0).mOutput.readBuffer.mItemsTick = s.main.mItems.length ∧
      ∃ q', (s.workers 0).mOutput.readBuffer.mQuery = some q' ∧ q.addr = q'.addr := by
  unfold Pool.processing Pool.getResults at h
  rw [hq, if_neg hn.ne'] at h
  simp only [Option.isNone_some, Bool.false_eq_true, if_false, Bool.or_eq_false_iff, decide_eq_false_iff_not, not_not,
    Option.map_some] at h
  refine ⟨h.1.symm, ?_⟩
  obtain ⟨q', hq', ha⟩ := Option.map_eq_some_iff.1 h.2.symm
  exact ⟨q', hq', ha.symm⟩

theorem upToDate_of_live {b : Build} {s : Pool} (hl : Live s) (hc : ContentInv b s) (hqs : Queries s.main)
    (hproc : s.processing = false) (hcur : Current b s) : UpToDate b s := by
  refine ⟨fun q hq => ?_, fun hq => showsItems_of_none (queryResults_eq_none (hcur.loaded hq))⟩
  obtain ⟨hitems, q', hres, haddr⟩ := ticks_of_processing hl.pos hq hproc
  have hqr : s.queryResults = some (s.workers 0).mOutput.readBuffer := by
    unfold Pool.queryResults Pool.getResults
    rw [if_neg hl.pos.ne', Option.filter_some, hres]
    rfl
  obtain ⟨J, hJ, hstamp, hcomplete⟩ := (hc.buf 0 hl.pos).read
  have hJq : J.mQuery = some q' := hstamp.query.symm.trans hres
  have hmq : s.main.mJob.mQuery = some q := hl.jobs.query.symm.trans hq
  obtain rfl := hqs.addr _ hl.jobs.current_mem J hJ q q' hmq hJq haddr
  have hlen : J.mItems.length = s.main.mItems.length := (congrArg Prod.fst hstamp.tick).symm.trans hitems
  have hJi : J.mItems = s.main.mItems := (hqs.items J hJ).eq_of_length hlen
  obtain ⟨hrows, hsorted⟩ := hcomplete.rows hl (hc.queue J hJ) hJq
  rw [hJi] at hrows
  refine ⟨?_, showsMatches_of_rows hqr hrows hsorted (hcur.index q hq)⟩
  unfold Pool.query
  rw [hqr]
  exact hres

/-- **Where `processing` says false the shown results are up to date**, in every state of every run that starts the
workers before the first commit, if a query is set or no results of a cleared query are loaded. -/
theorem upToDate_of_processing (b : Build) (hardwareConcurrency : ℕ) (pre post : List Pool.Action) (s : Pool)
    (hpre : ∀ a ∈ pre, a.Prepares) (hpost : ∀ a ∈ post, a.NoStop)
    (hrun : run (Pool.step b) (Pool.init hardwareConcurrency) pre = some s ∨
      run (Pool.step b) (Pool.init hardwareConcurrency) (pre ++ .call .start :: post) = some s)
    (hproc : s.processing = false) (hcur : Current b s) : UpToDate b s := by
  rcases hrun with hrun | hrun
  · have hp : Prepared s :=
      run_inv_on _ Prepared (fun _ _ _ ha hp hs => hp.step ha hs) pre _ s hpre (prepared_init _) hrun
    have hq : s.main.mQuery = none := by rw [hp.jobs.query, hp.mJob_eq]
    refine ⟨fun q h => ?_, fun _ => showsItems_of_none ?_⟩
    · cases hq.symm.trans h
    · unfold Pool.queryResults Pool.getResults
      rw [if_pos hp.size]
      rfl
  · obtain ⟨hl, hc⟩ := live_run (ContentInv b) (fun _ hp => hp.contentInv) (fun _ _ hl h hs => hs.contentInv hl h)
      hpre hpost hrun
    exact upToDate_of_live hl hc (run_queries hrun) hproc hcur

/-! ### Runs -/

/-- The sample's results, loaded. -/
def shown : Pool := sample.call .loadResults

theorem step_call {b : Build} {s : Pool} (h : s.main.pc = .idle) (c : Call) : s.step b (.call c) = some (s.call c) := if_pos h

theorem shown_run : run (Pool.step .scalar) (Pool.init 2)
    (samplePre ++ .call .start :: (samplePost ++ [.call .loadResults])) = some shown := by
  rw [← List.cons_append, ← List.append_assoc]
  refine run_append_eq_some.2 ⟨sample, sample_run, ?_⟩
  exact run_cons_eq_some.2 ⟨shown, step_call sample_atRest.1 .loadResults, rfl⟩

theorem shownPost_noStop : ∀ a ∈ samplePost ++ [.call .loadResults], a.NoStop := by
  intro a ha
  rcases List.mem_append.1 ha with ha | ha
  · exact samplePost_noStop a ha
  · rw [List.mem_singleton.1 ha]
    trivial

theorem shown_current : Current .scalar shown :=
  ⟨fun h => absurd h (by decide +kernel), fun _ _ _ hi _ => lt_trans hi (by decide +kernel)⟩

theorem upToDate_shown : UpToDate .scalar shown := by
  have hproc : shown.processing = false := by decide +kernel
  exact upToDate_of_processing .scalar 2 samplePre _ shown samplePre_prepares shownPost_noStop (Or.inr shown_run) hproc
    shown_current

/-- The query is cleared: `processing` says false while one of the two items is shown. -/
theorem not_upToDate_cleared : run (Pool.step .scalar) (Pool.init 2)
      (samplePre ++ .call .start :: (samplePost ++ [.call .loadResults, .call (.setQuery [])]))
        = some (shown.call (.setQuery [])) ∧
    (shown.call (.setQuery [])).processing = false ∧ ¬ UpToDate .scalar (shown.call (.setQuery [])) := by
  refine ⟨?_, by decide +kernel, fun h => ?_⟩
  · rw [← List.cons_append, ← List.append_assoc]
    refine run_append_eq_some.2 ⟨sample, sample_run, ?_⟩
    refine run_cons_eq_some.2 ⟨shown, step_call sample_atRest.1 .loadResults, ?_⟩
    exact run_cons_eq_some.2 ⟨shown.call (.setQuery []), step_call (by decide +kernel) (.setQuery []), rfl⟩
  · have hsize := (h.none (by decide +kernel)).1
    exact absurd hsize (by decide +kernel)

end Fzx
