import Fzx.PoolRuns
/-!
# PoolProgress — the estimate of `Fzx::progress` (fzx.cpp)

`progress` divides by the number of items wherever there is a chunk counter, and there is one as long as a query is set
(`JobsOk`).  No worker has a part in it: whatever the counter says, the value is between 0 and 1 if there is an item, and
0 / 0 if there is none (`progress_iff`).
-/
namespace Fzx

open Lib

namespace Pool

/-- `Fzx::progress` as an exact number; `none` is a division by zero. -/
def progress (s : Pool) : Option ℚ :=
  match s.main.mQueue with
  | none => some 1
  | some queue =>
    let processed := (s.queues queue).mIndex
    let total := s.main.mItems.length
    if total = 0 then none else some ((min processed total : ℕ) / (total : ℚ))

/-- A value between 0 and 1, with no division by zero. -/
def ProgressOk (s : Pool) : Prop := ∃ v, s.progress = some v ∧ 0 ≤ v ∧ v ≤ 1

/-- A query that is not empty is set only when there is an item. -/
def AfterItems (s : Pool) : Action → Prop
  | .call (.setQuery query) => (Query.parse query).empty = true ∨ s.main.mItems ≠ []
  | _ => True

/-! ## One state -/

theorem progressOk_iff_queue (s : Pool) : s.ProgressOk ↔ (s.main.mQueue.isSome = true → s.main.mItems ≠ []) := by
  rw [ProgressOk, progress]
  cases s.main.mQueue with
  | none => exact iff_of_true ⟨1, rfl, zero_le_one, le_rfl⟩ (fun h => Bool.noConfusion h)
  | some queue =>
    dsimp only
    by_cases h0 : s.main.mItems.length = 0
    · rw [if_pos h0]
      refine iff_of_false (fun ⟨v, hv, _⟩ => by cases hv) (fun h => h rfl (List.eq_nil_of_length_eq_zero h0))
    · rw [if_neg h0]
      have hpos : (0 : ℚ) < s.main.mItems.length := by exact_mod_cast Nat.pos_of_ne_zero h0
      refine iff_of_true ⟨_, rfl, by positivity, ?_⟩ (fun _ hnil => h0 (by rw [hnil]; rfl))
      rw [div_le_one hpos]
      exact_mod_cast min_le_right _ _

/-- **There is a counter where there is a query.** -/
theorem progressOk_iff {s : Pool} (h : RunOk s) : s.ProgressOk ↔ (s.main.mQuery.isSome = true → s.main.mItems ≠ []) := by
  rw [progressOk_iff_queue, h.jobs.queue, (h.jobs.ok _ h.jobs.current_mem).queue, h.jobs.query]

/-! ## What a step does to the query and the items -/

theorem commit_main (s : Pool) : s.commit.main.mQuery = s.main.mQuery ∧ s.commit.main.mItems = s.main.mItems := by
  grind [Pool.commit, Pool.renewQueue, Pool.setJob]

theorem setQuery_main (s : Pool) (query : Bytes) :
    (s.setQuery query).main.mQuery.isSome = !(Query.parse query).empty ∧ (s.setQuery query).main.mItems = s.main.mItems := by
  unfold Pool.setQuery
  extract_lets q
  split
  · rename_i h
    refine ⟨?_, rfl⟩
    cases hq : s.main.mQuery <;> rw [hq] at h <;> simp_all [q]
  · grind [Pool.withQuery, commit_main]

/-- Only `setQuery` changes the query, and the items only grow. -/
theorem step_main {b : Build} {s s' : Pool} {a : Action} (hn : s.main.mWorkersSize ≤ 64) (h : s.step b a = some s') :
    (∃ query, a = .call (.setQuery query) ∧ s' = s.setQuery query) ∨
      (s'.main.mQuery = s.main.mQuery ∧ s.main.mItems <+: s'.main.mItems ∧ s.AfterItems a) := by
  cases a with
  | call c =>
    obtain rfl : s' = s.call c := by
      rw [Pool.step] at h
      split at h
      · exact (Option.some.inj h).symm
      · cases h
    cases c with
    | setThreads threads => exact .inr ⟨rfl, List.prefix_rfl, trivial⟩
    | start => exact .inr ⟨(start_keeps s).mQuery, (start_keeps s).mItems, trivial⟩
    | stop => exact .inr ⟨(stop_keeps s).mQuery, (stop_keeps s).mItems, trivial⟩
    | pushItem str => exact .inr ⟨(pushItem_quiet s str).mQuery, (pushItem_quiet s str).mItems, trivial⟩
    | setQuery query => exact .inl ⟨query, rfl, rfl⟩
    | commit =>
      obtain ⟨hquery, hitems⟩ := commit_main s
      refine .inr ⟨hquery, ?_, trivial⟩
      change s.main.mItems <+: s.commit.main.mItems
      rw [hitems]
    | loadResults => exact .inr ⟨(loadResults_keeps s).mQuery, (loadResults_keeps s).mItems, trivial⟩
  | main =>
    have he := mainStep_main h
    exact .inr ⟨by rw [he], by rw [he], trivial⟩
  | worker w back =>
    rcases step_call_or_main hn h with ⟨c, hc, -⟩ | he
    · cases hc
    · exact .inr ⟨by rw [he], by rw [he], trivial⟩

theorem AfterItems.step {b : Build} {s s' : Pool} {a : Action} (h : RunOk s ∧ s.ProgressOk) (ha : s.AfterItems a)
    (hs : s.step b a = some s') : RunOk s' ∧ s'.ProgressOk := by
  have h' := h.1.step hs
  refine ⟨h', (progressOk_iff h').2 ?_⟩
  have hold := (progressOk_iff h.1).1 h.2
  rcases step_main h.1.size hs with ⟨query, rfl, rfl⟩ | ⟨hquery, hitems, -⟩
  · obtain ⟨hsome, hitems⟩ := setQuery_main s query
    rw [hsome, hitems]
    intro hne
    exact ha.resolve_left (fun he => by rw [he] at hne; cases hne)
  · rw [hquery]
    intro hsome hnil
    rw [hnil] at hitems
    exact hold hsome (List.prefix_nil.1 hitems)

theorem ProgressOk.afterItems {b : Build} {s s' : Pool} {a : Action} (h : RunOk s) (hs : s.step b a = some s')
    (hp : s'.ProgressOk) : s.AfterItems a := by
  rcases step_main h.size hs with ⟨query, rfl, rfl⟩ | ⟨-, -, ha⟩
  · have hp := (progressOk_iff (h.step hs)).1 hp
    obtain ⟨hsome, hitems⟩ := setQuery_main s query
    rw [hsome, hitems] at hp
    by_cases he : (Query.parse query).empty = true
    · exact .inl he
    · exact .inr (hp (by rw [Bool.eq_false_iff.2 he]; rfl))
  · exact ha

/-- **`progress` is between 0 and 1 in every state of a run exactly when no call of the run sets a query before there is an
item**, whatever the workers do. -/
theorem progress_iff (b : Build) (hardwareConcurrency : ℕ) (as : List Action) :
    (∀ pre s, pre <+: as → run (step b) (init hardwareConcurrency) pre = some s → s.ProgressOk) ↔
      Meets (step b) AfterItems (init hardwareConcurrency) as := by
  refine meets_iff (fun s h => h.2) (fun s a t h ha hs => AfterItems.step h ha hs)
    (fun s a t h hs hp => hp.afterItems h.1 hs) as _ ⟨runOk_init hardwareConcurrency, ?_⟩
  exact (progressOk_iff (runOk_init hardwareConcurrency)).2 (fun h => Bool.noConfusion h)

/-- **`a` is typed before the first item arrives**: the counter is there, and `progress` divides by zero. -/
theorem not_progressOk : ¬ ∀ (b : Build) (hardwareConcurrency : ℕ) (as : List Action) (s : Pool),
    run (step b) (init hardwareConcurrency) as = some s → s.ProgressOk := by
  intro h
  obtain ⟨v, hv, -⟩ := h .sse2 1 [.call (.setQuery [97])] _ rfl
  have hnone : ((init 1).call (.setQuery [97])).progress = none := by decide +kernel
  rw [hnone] at hv
  cases hv

end Pool
end Fzx
