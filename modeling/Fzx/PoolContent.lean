import Fzx.PoolWake
import Fzx.PoolRows
/-!
# PoolContent — what the published results hold

The history of a job's chunk counter says which worker took which chunk, so a set of workers has its share of the items.
While a worker matches, its write buffer holds the rows of its own share; while it merges, those of the shares of the
workers merged so far, all chunks being taken; and what it commits are the rows of its subtree's share (`OutOk`,
`ResOk`).  Worker 0's subtree is the whole pool (`published_exact`).
-/
namespace Fzx

open Lib MergeState

namespace Pool

/-- The workers that took the chunks of a job, in order. -/
def takers (s : Pool) (J : Job) : List ℕ :=
  match J.mQueue with
  | some p => (s.queues p).takers
  | none => []

/-- The indices of the items that the workers in `S` took. -/
def share (s : Pool) (J : Job) (S : Finset ℕ) : List ℕ := claimed kChunkSize J.mItems.length (s.takers J) S

end Pool

/-- The rows of the share of `S`, once all chunks are taken by `ts`. -/
structure Merged (b : Build) (J : Job) (ts : List ℕ) (q : Query) (S : Finset ℕ) (l : List MatchedItem) : Prop where
  exhausted : J.mItems.length ≤ kChunkSize * ts.length
  rows : Rows b J.mItems q (claimed kChunkSize J.mItems.length ts S) l
  sorted : Sorted l

def Complete (b : Build) (s : Pool) (J : Job) (S : Finset ℕ) (l : List MatchedItem) : Prop :=
  ∀ q, J.mQuery = some q → Merged b J (s.takers J) q.val S l

/-- The rows of what worker `w` took. -/
def Partly (b : Build) (s : Pool) (J : Job) (w : ℕ) (l : List MatchedItem) : Prop :=
  ∀ q, J.mQuery = some q → Rows b J.mItems q.val (s.share J {w}) l

/-- The rows of what worker `w` took but for the last chunk. -/
def InChunk (b : Build) (s : Pool) (J : Job) (w start stop : ℕ) (l : List MatchedItem) : Prop :=
  ∀ q, J.mQuery = some q → ∃ is, Rows b J.mItems q.val is l ∧
    s.share J {w} = is ++ List.range' start (stop - start)

/-- Results that worker `w` committed. -/
def ResOk (b : Build) (s : Pool) (w : ℕ) (R : Results) : Prop :=
  ∃ J ∈ s.main.history, Stamped R J ∧ Complete b s J (subtree w) R.mItems

structure BufOk (b : Build) (s : Pool) (w : ℕ) : Prop where
  committed : ResOk b s w (s.workers w).mOutput.committed
  read : ResOk b s w (s.workers w).mOutput.readBuffer
  taken : ∀ J ∈ s.main.history, (s.workers w).job.tick < J.tick → w ∉ s.takers J

def Unmerged (W : Worker) : Prop := ∀ i < W.mergeState.size, W.mergeState.contains i = false

def OutOk (b : Build) (s : Pool) (w : ℕ) : Prop :=
  match (s.workers w).pc with
  | .take | .get | .got _ =>
    Unmerged (s.workers w) ∧ Partly b s (s.workers w).job w (s.workers w).out.mItems
  | .chunk start stop =>
    Unmerged (s.workers w) ∧ InChunk b s (s.workers w).job w start stop (s.workers w).out.mItems
  | .wait | .woken _ | .merge _ | .merging _ => (s.workers w).published = false →
    Complete b s (s.workers w).job ((s.workers w).mergeState.mergedSet w) (s.workers w).out.mItems
  | .publish => (s.workers w).published = false →
    Complete b s (s.workers w).job (subtree w) (s.workers w).out.mItems
  | .notify | .stopped => True

/-- A chunk counter in use. -/
structure QueueOk (s : Pool) (J : Job) : Prop where
  index : ∀ p, J.mQueue = some p → (s.queues p).mIndex = kChunkSize * (s.queues p).takers.length
  takers : ∀ t ∈ s.takers J, t < s.main.mWorkersSize

structure ContentInv (b : Build) (s : Pool) : Prop where
  wake : WakeInv s
  queue : ∀ J ∈ s.main.history, QueueOk s J
  buf : ∀ w < s.main.mWorkersSize, BufOk b s w
  out : ∀ w < s.main.mWorkersSize, OutOk b s w

/-! ## What other workers take -/

section

variable {b : Build} {s s' : Pool} {J : Job} {ts : List ℕ} {q : Query} {S T : Finset ℕ} {l : List MatchedItem} {w : ℕ}

theorem takers_of_queue {p : ℕ} (h : J.mQueue = some p) : s.takers J = (s.queues p).takers := by
  unfold Pool.takers
  rw [h]

/-- A take changes nothing once all chunks are taken. -/
theorem Merged.snoc (h : Merged b J ts q S l) (v : ℕ) : Merged b J (ts ++ [v]) q S l where
  exhausted := by
    rw [List.length_append, Nat.mul_add]
    exact h.exhausted.trans (Nat.le_add_right _ _)
  rows := by
    rw [claimed_snoc_of_le h.exhausted]
    exact h.rows
  sorted := h.sorted

theorem Complete.grows (h : Complete b s J S l)
    (ht : s'.takers J = s.takers J ∨ ∃ v, s'.takers J = s.takers J ++ [v]) : Complete b s' J S l := by
  intro q hq
  rcases ht with ht | ⟨v, ht⟩
  · rw [ht]
    exact h q hq
  · rw [ht]
    exact (h q hq).snoc v

theorem share_singleton_grows (ht : s'.takers J = s.takers J ∨ ∃ v ≠ w, s'.takers J = s.takers J ++ [v]) :
    s'.share J {w} = s.share J {w} := by
  unfold Pool.share
  rcases ht with ht | ⟨v, hv, ht⟩
  · rw [ht]
  · rw [ht, claimed_snoc_of_notMem (by simpa using hv)]

/-- **Two disjoint shares merge.** -/
theorem Merged.merge2 {m : List MatchedItem} (h : Merged b J ts q S l) (h' : Merged b J ts q T m) (hd : Disjoint S T) :
    Merged b J ts q (S ∪ T) (merge2 l m) where
  exhausted := h.exhausted
  rows := ((h.rows.append h'.rows).perm_left (claimed_union_perm hd).symm).perm_right (merge2_perm l m)
  sorted := merge2_sorted h.sorted h'.sorted

/-- Nothing to merge. -/
theorem Merged.union_nil (h : Merged b J ts q S l) (h' : Merged b J ts q T []) (hd : Disjoint S T) :
    Merged b J ts q (S ∪ T) l where
  exhausted := h.exhausted
  rows := by
    have hr := (h.rows.append h'.rows).perm_left (claimed_union_perm hd).symm
    rwa [List.append_nil] at hr
  sorted := h.sorted

theorem Merged.congr (h : Merged b J ts q S l) (hST : ∀ t ∈ ts, t ∈ S ↔ t ∈ T) : Merged b J ts q T l where
  exhausted := h.exhausted
  rows := claimed_congr hST ▸ h.rows
  sorted := h.sorted

end

/-- What a worker that does not move sees change. -/
structure Aside (s s' : Pool) (w : ℕ) : Prop where
  self : Touched (s.workers w) (s'.workers w)
  history : s.main.history ⊆ s'.main.history
  fresh : ∀ J ∈ s'.main.history, J ∈ s.main.history ∨ s'.takers J = []
  grows : ∀ J ∈ s.main.history, s'.takers J = s.takers J ∨ ∃ v ≠ w, s'.takers J = s.takers J ++ [v]

section

variable {b : Build} {s s' : Pool} {w : ℕ}

theorem ResOk.grows {R : Results} (h : ResOk b s w R) (hm : s.main.history ⊆ s'.main.history)
    (ht : ∀ J ∈ s.main.history, s'.takers J = s.takers J ∨ ∃ v, s'.takers J = s.takers J ++ [v]) : ResOk b s' w R := by
  obtain ⟨J, hJ, hs, hc⟩ := h
  exact ⟨J, hm hJ, hs, hc.grows (ht J hJ)⟩

theorem Aside.grows' (h : Aside s s' w) (J : Job) (hJ : J ∈ s.main.history) :
    s'.takers J = s.takers J ∨ ∃ v, s'.takers J = s.takers J ++ [v] :=
  (h.grows J hJ).imp_right (fun ⟨v, _, hv⟩ => ⟨v, hv⟩)

theorem Aside.bufOk (h : Aside s s' w) (hb : BufOk b s w) : BufOk b s' w where
  committed := by
    rw [h.self.committed]
    exact hb.committed.grows h.history h.grows'
  read := by
    have hread : (s'.workers w).mOutput.readBuffer = (s.workers w).mOutput.readBuffer ∨
        (s'.workers w).mOutput.readBuffer = (s.workers w).mOutput.committed := h.self.readBuffer
    rcases hread with he | he
    · rw [he]
      exact hb.read.grows h.history h.grows'
    · rw [he]
      exact hb.committed.grows h.history h.grows'
  taken := by
    rw [h.self.job_eq]
    intro J hJ hlt hmem
    rcases h.fresh J hJ with hJ | hn
    · rcases h.grows J hJ with he | ⟨v, hv, he⟩
      · rw [he] at hmem
        exact hb.taken J hJ hlt hmem
      · rw [he, List.mem_append, List.mem_singleton] at hmem
        exact hmem.elim (hb.taken J hJ hlt) (fun h => hv h.symm)
    · rw [hn] at hmem
      exact List.not_mem_nil hmem

theorem Aside.outOk (h : Aside s s' w) (hst : StampOk s.main (s.workers w)) (ho : OutOk b s w) : OutOk b s' w := by
  have hg := h.grows _ hst.job
  have hg' := h.grows' _ hst.job
  have hshare := share_singleton_grows hg
  unfold OutOk at *
  rw [h.self.pc, h.self.job_eq, h.self.published, h.self.mergeState_eq, h.self.out_eq]
  have hun : Unmerged (s.workers w) → Unmerged (s'.workers w) := by
    unfold Unmerged
    rw [h.self.mergeState_eq]
    exact id
  have hpart : Partly b s (s.workers w).job w (s.workers w).out.mItems →
      Partly b s' (s.workers w).job w (s.workers w).out.mItems := by
    unfold Partly
    rw [hshare]
    exact id
  have hchunk : ∀ start stop, InChunk b s (s.workers w).job w start stop (s.workers w).out.mItems →
      InChunk b s' (s.workers w).job w start stop (s.workers w).out.mItems := by
    intro start stop
    unfold InChunk
    rw [hshare]
    exact id
  cases hpc : (s.workers w).pc with
  | take => rw [hpc] at ho; exact ho.imp hun hpart
  | get => rw [hpc] at ho; exact ho.imp hun hpart
  | got ev => rw [hpc] at ho; exact ho.imp hun hpart
  | chunk start stop => rw [hpc] at ho; exact ho.imp hun (hchunk start stop)
  | wait => rw [hpc] at ho; exact fun hp => (ho hp).grows hg'
  | woken ev => rw [hpc] at ho; exact fun hp => (ho hp).grows hg'
  | merge i => rw [hpc] at ho; exact fun hp => (ho hp).grows hg'
  | merging i => rw [hpc] at ho; exact fun hp => (ho hp).grows hg'
  | publish => rw [hpc] at ho; exact fun hp => (ho hp).grows hg'
  | notify => trivial
  | stopped => trivial

end

/-! ## What a worker takes -/

section

variable {b : Build} {s s' : Pool} {w : ℕ} {back : Results}

theorem takers_taken_self {J : Job} {p : ℕ} (h : J.mQueue = some p) (W : Worker) :
    ({ s with queues := s.taken w p }.setWorker w W).takers J = s.takers J ++ [w] := by
  rw [takers_of_queue h, takers_of_queue h]
  change (Function.update s.queues p _ p).takers = _
  rw [Function.update_self]
  rfl

theorem takers_taken_other {J : Job} {p : ℕ} (h : J.mQueue ≠ some p) (W : Worker) :
    ({ s with queues := s.taken w p }.setWorker w W).takers J = s.takers J := by
  cases hq : J.mQueue with
  | none =>
    unfold Pool.takers
    rw [hq]
  | some p' =>
    rw [takers_of_queue hq, takers_of_queue hq]
    change (Function.update s.queues p _ p').takers = _
    rw [Function.update_of_ne (fun he => h (hq.trans (congrArg some he)))]

/-- A worker takes chunks of its own job only. -/
theorem WorkerStep.takers (hm : HistoryOk s.main) (hjob : (s.workers w).job ∈ s.main.history)
    (hs : WorkerStep b s w back s') {J : Job} (hJ : J ∈ s.main.history) :
    s'.takers J = s.takers J ∨ (J = (s.workers w).job ∧ s'.takers J = s.takers J ++ [w]) := by
  cases hs with
  | own _ => exact .inl rfl
  | @takeChunk p _ hp _ =>
    by_cases hq : J.mQueue = some p
    · exact .inr ⟨hm.eq_of_queue hJ hjob hq hp, takers_taken_self hq _⟩
    · exact .inl (takers_taken_other hq _)
  | @takeEnd p _ hp _ =>
    by_cases hq : J.mQueue = some p
    · exact .inr ⟨hm.eq_of_queue hJ hjob hq hp, takers_taken_self hq _⟩
    · exact .inl (takers_taken_other hq _)
  | load _ _ _ => exact .inl rfl
  | notifyMain _ _ => exact .inl rfl
  | notifyParent _ _ _ => exact .inl rfl

theorem QueueOk.taken {J : Job} {p : ℕ} (hw : w < s.main.mWorkersSize) (h : QueueOk s J) (W : Worker) :
    QueueOk ({ s with queues := s.taken w p }.setWorker w W) J := by
  by_cases hq : J.mQueue = some p
  · refine ⟨fun p' hp' => ?_, ?_⟩
    · cases hq.symm.trans hp'
      change (Function.update s.queues p _ p).mIndex = kChunkSize * (Function.update s.queues p _ p).takers.length
      rw [Function.update_self]
      change (s.queues p).mIndex + kChunkSize = kChunkSize * ((s.queues p).takers ++ [w]).length
      rw [h.index p hq, List.length_append, List.length_singleton, Nat.mul_add, Nat.mul_one]
    · rw [takers_taken_self hq]
      intro t ht
      rcases List.mem_append.1 ht with ht | ht
      · exact h.takers t ht
      · exact (List.mem_singleton.1 ht) ▸ hw
  · refine ⟨fun p' hp' => ?_, ?_⟩
    · have hne : p' ≠ p := fun he => hq (hp'.trans (congrArg some he))
      change (Function.update s.queues p _ p').mIndex = kChunkSize * (Function.update s.queues p _ p').takers.length
      rw [Function.update_of_ne hne]
      exact h.index p' hp'
    · rw [takers_taken_other hq]
      exact h.takers

theorem WorkerStep.queueOk {J : Job} (hw : w < s.main.mWorkersSize) (h : QueueOk s J) (hs : WorkerStep b s w back s') :
    QueueOk s' J := by
  cases hs with
  | own _ => exact ⟨h.index, h.takers⟩
  | takeChunk _ _ _ => exact h.taken hw _
  | takeEnd _ _ _ => exact h.taken hw _
  | load _ _ _ => exact ⟨h.index, h.takers⟩
  | notifyMain _ _ => exact ⟨h.index, h.takers⟩
  | notifyParent _ _ _ => exact ⟨h.index, h.takers⟩

theorem react_job_le {W : Worker} (hm : HistoryOk s.main) (hst : StampOk s.main W) (ev : EventSet)
    {goOn : Worker → Worker} (hgo : (goOn W).job = W.job) : W.job.tick ≤ (W.react s.main.mJob ev goOn).job.tick := by
  rcases react_cases hm hst ev goOn with ⟨_, he⟩ | ⟨_, he⟩ | ⟨hlt, he⟩
  · rw [he]
    exact le_rfl
  · rw [he, hgo]
  · rw [he]
    exact hlt.le

/-- A worker's job gets no older. -/
theorem Own.job_le {W W' : Worker} (hm : HistoryOk s.main) (hst : StampOk s.main W) (h : Own b s back W W') :
    W.job.tick ≤ W'.job.tick := by
  cases h with
  | woken _ => exact react_job_le hm hst _ rfl
  | got _ => exact react_job_le hm hst _ rfl
  | merging _ => rw [(mergeChild_keeps _ _ _).1]
  | wake _ => exact le_rfl
  | chunk _ _ _ => exact le_rfl
  | get _ => exact le_rfl
  | skip _ _ _ => exact le_rfl
  | mergeEnd _ _ => exact le_rfl
  | already _ _ => exact le_rfl
  | publish _ _ => exact le_rfl

theorem SelfStep.job_le {W W' : Worker} (hm : HistoryOk s.main) (hst : StampOk s.main W)
    (hs : SelfStep b s back W W') : W.job.tick ≤ W'.job.tick := by
  cases hs with
  | own ho => exact ho.job_le hm hst
  | chunk _ _ _ => exact le_rfl
  | sort _ => exact le_rfl
  | load _ => exact le_rfl
  | notified _ => exact le_rfl

theorem WorkerStep.bufOk (hm : HistoryOk s.main) (hst : StampOk s.main (s.workers w)) (hb : BufOk b s w)
    (ho : OutOk b s w) (hs : WorkerStep b s w back s') : BufOk b s' w := by
  have htakers := fun J (hJ : J ∈ s.main.history) => hs.takers hm hst.job hJ
  have hgrows : ∀ J ∈ s.main.history, s'.takers J = s.takers J ∨ ∃ v, s'.takers J = s.takers J ++ [v] :=
    fun J hJ => (htakers J hJ).imp_right (fun h => ⟨w, h.2⟩)
  have hsub : s.main.history ⊆ s'.main.history := by
    rw [hs.main]
    exact List.Subset.refl _
  obtain ⟨hread, hout⟩ := hs.output hm hst
  refine ⟨?_, ?_, ?_⟩
  · rcases hout with ⟨hpc, hp, _, hc⟩ | ⟨hc, _⟩
    · rw [hc]
      unfold OutOk at ho
      rw [hpc] at ho
      have hres : ResOk b s w (s.workers w).out := ⟨_, hst.job, hst.out hp, ho hp⟩
      exact hres.grows hsub hgrows
    · rw [hc]
      exact hb.committed.grows hsub hgrows
  · rw [hread]
    exact hb.read.grows hsub hgrows
  · intro J hJ hlt
    rw [hs.main] at hJ
    have hlt' := (hs.self.job_le hm hst).trans_lt hlt
    rcases htakers J hJ with he | ⟨he, _⟩
    · rw [he]
      exact hb.taken J hJ hlt'
    · rw [he] at hlt'
      exact absurd hlt' (lt_irrefl _)

end

/-! ## A worker's write buffer -/

section

variable {b : Build} {s s' : Pool} {w : ℕ} {back : Results}

/-- All children merged: the whole subtree. -/
theorem complete_of_done {m : MergeState} {n : ℕ} {J : Job} {l : List MatchedItem} (hwf : m.WellFormed w n)
    (hd : m.done = true) (ht : ∀ t ∈ s.takers J, t < n) (h : Complete b s J (m.mergedSet w) l) :
    Complete b s J (subtree w) l :=
  fun q hq => (h q hq).congr (fun t hmem => hwf.mem_mergedSet_iff_of_done hd (ht t hmem))

theorem outOk_enterMerge {W : Worker} {n : ℕ} (hW : s'.workers w = W.enterMerge) (hwf : W.mergeState.WellFormed w n)
    (ht : ∀ t ∈ s'.takers W.job, t < n)
    (h : W.published = false → Complete b s' W.job (W.mergeState.mergedSet w) W.out.mItems) : OutOk b s' w := by
  unfold OutOk
  rw [hW]
  unfold Worker.enterMerge
  by_cases hd : W.mergeState.done = true
  · rw [if_pos hd]
    exact fun hp => complete_of_done hwf hd ht (h hp)
  · rw [if_neg hd]
    exact h

theorem startMatch_pc_of_none {W : Worker} (h : W.job.mQuery = none) : W.startMatch.pc = .publish := by
  unfold Worker.startMatch
  simp only [h]

theorem startMatch_pc_of_some {W : Worker} {q : Shared Query} (h : W.job.mQuery = some q) (hq : q.val.empty = false) :
    W.startMatch.pc = .take := by
  unfold Worker.startMatch
  simp only [h, hq, Bool.false_eq_true, if_false]

theorem outOk_startMatch {W : Worker} {J : Job} {n k : ℕ} (hW : s'.workers w = (W.withJob J).startMatch)
    (hwf : W.mergeState.WellFormed w n) (hJ : J.Ok k) (ht : w ∉ s'.takers J) : OutOk b s' w := by
  have hshare : s'.share J {w} = [] := by
    apply claimed_eq_nil
    intro t hmem hw
    exact ht ((Finset.mem_singleton.1 hw) ▸ hmem)
  unfold OutOk
  rw [hW]
  cases hq : J.mQuery with
  | none =>
    have hpc : (W.withJob J).startMatch.pc = .publish := startMatch_pc_of_none hq
    rw [hpc]
    intro _ q hq'
    cases hq.symm.trans hq'
  | some q =>
    have hpc : (W.withJob J).startMatch.pc = .take := startMatch_pc_of_some hq (hJ.nonempty q hq)
    rw [hpc]
    refine ⟨fun i hi => hwf.not_contains_reset hi, fun q' hq' => ?_⟩
    change Rows b J.mItems q'.val (s'.share J {w}) []
    rw [hshare]
    exact Rows.nil

/-- What was loaded from a child for the worker's job is whole for the child's subtree. -/
theorem complete_child {n i : ℕ} {J : Job} {R : Results} {m : MergeState} (hm : HistoryOk s.main)
    (hJ : J ∈ s.main.history) (hwf : m.WellFormed w n) (hw : w < 64) (hi : i < m.size)
    (hR : ResOk b s (w + 2 ^ i) R) (ht : R.tick = J.tick) :
    Complete b s J (Finset.Ico (w + 2 ^ i) (w + 2 ^ i + 2 ^ i)) R.mItems := by
  obtain ⟨J', hJ', hs, hc⟩ := hR
  have he : J' = J := hm.eq_of_tick hJ' hJ (hs.tick.symm.trans ht)
  rw [← hwf.subtree_child hw hi, ← he]
  exact hc

/-- Merging a child's results adds its subtree. -/
theorem complete_merge {n i : ℕ} {J : Job} {m : MergeState} {l cs : List MatchedItem} (hwf : m.WellFormed w n)
    (hi : i < m.size) (hc : m.contains i = false) (h : Complete b s J (m.mergedSet w) l)
    (h' : Complete b s J (Finset.Ico (w + 2 ^ i) (w + 2 ^ i + 2 ^ i)) cs) :
    Complete b s J ((m.set i).mergedSet w) (if !cs.isEmpty then merge2 l cs else l) := by
  intro q hq
  rw [mergedSet_set hi (hwf.size_le.trans (by decide))]
  cases cs with
  | nil => exact (h q hq).union_nil (h' q hq) (disjoint_mergedSet hc)
  | cons c cs => exact (h q hq).merge2 (h' q hq) (disjoint_mergedSet hc)

/-- The loop over a chunk adds the rows of the chunk. -/
theorem outOk_chunk {start stop : ℕ} {q : Shared Query} {items : List MatchedItem} (hout : OutOk b s w)
    (hpc : (s.workers w).pc = .chunk start stop) (hq : (s.workers w).job.mQuery = some q)
    (hmi : matchItems b (s.workers w).job.mItems q.val (List.range' start (stop - start)) (s.workers w).out.mItems =
      some items) : OutOk b (s.setWorker w (((s.workers w).setItems items).goto .get)) w := by
  unfold OutOk at hout ⊢
  rw [hpc] at hout
  rw [setWorker_self]
  refine ⟨hout.1, fun q' hq' => ?_⟩
  obtain ⟨is, hr, hsh⟩ := hout.2 q' hq'
  cases hq.symm.trans hq'
  change Rows b (s.workers w).job.mItems q.val (s.share (s.workers w).job {w}) items
  rw [hsh]
  exact hr.matchItems hmi

theorem outOk_react {ev : EventSet} {goOn : Worker → Worker} (hl : Live s) (h : ContentInv b s)
    (hw : w < s.main.mWorkersSize) (hgo : OutOk b (s.setWorker w (goOn (s.workers w))) w) :
    OutOk b (s.setWorker w ((s.workers w).react s.main.mJob ev goOn)) w := by
  have hm := hl.jobs.toHistoryOk
  rcases react_cases hm (h.wake.stamps.stamp w) ev goOn with ⟨_, he⟩ | ⟨_, he⟩ | ⟨hlt, he⟩
  · rw [he]
    unfold OutOk
    rw [setWorker_self]
    trivial
  · rw [he]
    exact hgo
  · have htaken := (h.buf w hw).taken _ hm.current_mem hlt
    rw [he]
    exact outOk_startMatch (setWorker_self ..) (h.wake.stamps.merge w) (hm.ok _ hm.current_mem) htaken

theorem outOk_mergeChild {i : ℕ} (hl : Live s) (h : ContentInv b s) (hw : w < s.main.mWorkersSize)
    (hpc : (s.workers w).pc = .merging i) : OutOk b (s.setWorker w
      (Pool.mergeChild (s.workers w) i (s.workers ((s.workers w).mergeState.child i)).mOutput.readBuffer)) w := by
  have hst := h.wake.stamps.stamp w
  have hwf := h.wake.stamps.merge w
  have hout := h.out w hw
  unfold OutOk at hout
  rw [hpc] at hout
  rcases mergeChild_cases (s.workers w) i (s.workers ((s.workers w).mergeState.child i)).mOutput.readBuffer with
    ⟨_, he⟩ | ⟨_, he⟩ | ⟨ht, he⟩
  · rw [he]
    unfold OutOk
    rw [setWorker_self]
    exact hout
  · rw [he]
    unfold OutOk
    rw [setWorker_self]
    exact hout
  · rw [he]
    unfold OutOk
    rw [setWorker_self]
    intro hp
    obtain ⟨_, hi, hc, _⟩ := (h.wake.wake w hw).merging i hp hpc
    have hchild := h.buf _ (hwf.child_lt hi)
    rw [hwf.child_eq] at ht hchild ⊢
    have htick := ht.trans (hst.out hp).tick
    have hcs := complete_child hl.jobs.toHistoryOk hst.job hwf (hw.trans_le hl.size) hi hchild.read htick
    exact complete_merge hwf hi hc (hout hp) hcs

theorem Own.outOk {W' : Worker} (hl : Live s) (h : ContentInv b s) (hw : w < s.main.mWorkersSize)
    (ho : Own b s back (s.workers w) W') : OutOk b (s.setWorker w W') w := by
  have hwf := h.wake.stamps.merge w
  have htak := (h.queue _ (h.wake.stamps.stamp w).job).takers
  have hout := h.out w hw
  cases ho with
  | chunk hpc hq hmi => exact outOk_chunk hout hpc hq hmi
  | merging hpc => exact outOk_mergeChild hl h hw hpc
  | woken hpc =>
    unfold OutOk at hout
    rw [hpc] at hout
    exact outOk_react hl h hw (outOk_enterMerge (setWorker_self ..) hwf htak hout)
  | got hpc =>
    refine outOk_react hl h hw ?_
    unfold OutOk at hout ⊢
    rw [hpc] at hout
    rw [setWorker_self]
    exact hout
  | wake hpc =>
    unfold OutOk at hout ⊢
    rw [hpc] at hout
    rw [setWorker_self]
    exact hout
  | get hpc =>
    unfold OutOk at hout ⊢
    rw [hpc] at hout
    rw [setWorker_self]
    exact hout
  | skip hpc _ _ =>
    unfold OutOk at hout ⊢
    rw [hpc] at hout
    rw [setWorker_self]
    exact hout
  | mergeEnd hpc _ =>
    unfold OutOk at hout ⊢
    rw [hpc] at hout
    rw [setWorker_self]
    by_cases hd : (s.workers w).mergeState.done = true
    · rw [if_pos hd]
      exact fun hp => complete_of_done hwf hd htak (hout hp)
    · rw [if_neg hd]
      exact hout
  | already _ hp =>
    unfold OutOk
    rw [setWorker_self]
    intro hp'
    cases hp.symm.trans hp'
  | publish _ _ =>
    unfold OutOk
    rw [setWorker_self]
    trivial

theorem WorkerStep.outOk (hl : Live s) (h : ContentInv b s) (hw : w < s.main.mWorkersSize)
    (hs : WorkerStep b s w back s') : OutOk b s' w := by
  have hm := hl.jobs.toHistoryOk
  have hst := h.wake.stamps.stamp w
  have hwf := h.wake.stamps.merge w
  have hout := h.out w hw
  have hqueue := h.queue _ hst.job
  cases hs with
  | own ho => exact ho.outOk hl h hw
  | @takeChunk p hpc hp hlt =>
    unfold OutOk at hout ⊢
    rw [hpc] at hout
    rw [setWorker_self]
    refine ⟨hout.1, fun q hq => ⟨_, hout.2 q hq, ?_⟩⟩
    -- The chunk is the next one of the counter.
    have hidx := hqueue.index p hp
    rw [← takers_of_queue hp] at hidx
    have hmin := Nat.min_eq_left hlt.le
    rw [hidx] at hmin
    change claimed kChunkSize (s.workers w).job.mItems.length (Pool.takers _ (s.workers w).job) {w} = _
    rw [takers_taken_self hp, claimed_snoc, if_pos (Finset.mem_singleton_self w), hidx]
    unfold chunk
    rw [hmin]
    rfl
  | @takeEnd p hpc hp hle =>
    unfold OutOk at hout
    rw [hpc] at hout
    have hidx := hqueue.index p hp
    rw [← takers_of_queue hp] at hidx
    rw [hidx] at hle
    refine outOk_enterMerge (setWorker_self ..) hwf ((hqueue.taken hw _).takers) (fun _ q hq => ?_)
    have hset : ((s.workers w).mergeState.mergedSet w) = {w} := mergedSet_eq_singleton hout.1
    change Merged b (s.workers w).job (Pool.takers _ (s.workers w).job) q.val ((s.workers w).mergeState.mergedSet w)
      (sortItems (s.workers w).out.mItems)
    rw [hset, takers_taken_self hp]
    have hmerged : Merged b (s.workers w).job (s.takers (s.workers w).job) q.val {w}
        (sortItems (s.workers w).out.mItems) :=
      ⟨hle, (hout.2 q hq).perm_right (sortItems_perm _), sortItems_sorted _⟩
    exact hmerged.snoc w
  | load hpc _ _ =>
    unfold OutOk at hout ⊢
    rw [hpc] at hout
    rw [setWorker_self]
    exact hout
  | notifyMain hpc _ =>
    unfold OutOk
    rw [setWorker_self]
    intro hp
    cases (hst.notify hpc).symm.trans hp
  | notifyParent hpc _ hp =>
    unfold OutOk
    rw [setWorker_other hp, setWorker_self]
    intro hp
    cases (hst.notify hpc).symm.trans hp

end

/-! ## Runs -/

section

variable {b : Build} {s s' : Pool}

theorem WorkerStep.aside {w u : ℕ} {back : Results} (hm : HistoryOk s.main)
    (hjob : (s.workers u).job ∈ s.main.history) (hs : WorkerStep b s u back s') (hu : w ≠ u) : Aside s s' w where
  self := hs.touched hu
  history := by
    rw [hs.main]
    exact List.Subset.refl _
  fresh := by
    rw [hs.main]
    exact fun J hJ => .inl hJ
  grows := fun J hJ => (hs.takers hm hjob hJ).imp_right (fun h => ⟨u, hu.symm, h.2⟩)

theorem NewJob.takers {J : Job} (hn : NewJob s s') (hl : Live s) (hJ : J ∈ s.main.history) :
    s'.takers J = s.takers J := by
  cases hq : J.mQueue with
  | none =>
    unfold Pool.takers
    rw [hq]
  | some p => rw [takers_of_queue hq, takers_of_queue hq, hn.queues p ((hl.jobs.ok J hJ).queueLt p hq)]

theorem NewJob.history (hn : NewJob s s') : s'.main.history = s.main.history ++ [s'.main.mJob] := by
  unfold Main.history
  rw [hn.jobs, List.cons_append]

theorem NewJob.takers_nil (hn : NewJob s s') : s'.takers s'.main.mJob = [] := by
  cases hq : s'.main.mJob.mQueue with
  | none =>
    unfold Pool.takers
    rw [hq]
  | some p => rw [takers_of_queue hq, hn.fresh p hq]

theorem takers_eq_of_queues (h : s'.queues = s.queues) (J : Job) : s'.takers J = s.takers J := by
  unfold Pool.takers
  rw [h]

theorem aside_of_queues (ht : ∀ w, Touched (s.workers w) (s'.workers w)) (hm : s'.main.history = s.main.history)
    (hq : s'.queues = s.queues) (w : ℕ) : Aside s s' w where
  self := ht w
  history := by
    rw [hm]
    exact List.Subset.refl _
  fresh := by
    rw [hm]
    exact fun J hJ => .inl hJ
  grows := fun J _ => .inl (takers_eq_of_queues hq J)

theorem NewJob.aside (hn : NewJob s s') (hl : Live s) (w : ℕ) : Aside s s' w where
  self := .of_eq (congrFun hn.workers w)
  history := by
    rw [hn.history]
    exact List.subset_append_left _ _
  fresh := by
    intro J hJ
    rw [hn.history, List.mem_append, List.mem_singleton] at hJ
    refine hJ.imp_right (fun he => ?_)
    rw [he]
    exact hn.takers_nil
  grows := fun _ hJ => .inl (hn.takers hl hJ)

theorem QueueOk.of_queues {J : Job} (h : QueueOk s J) (hq : s'.queues = s.queues)
    (hn : s'.main.mWorkersSize = s.main.mWorkersSize) : QueueOk s' J where
  index := by
    rw [hq]
    exact h.index
  takers := by
    rw [takers_eq_of_queues hq, hn]
    exact h.takers

theorem NewJob.queueOk (hn : NewJob s s') (hl : Live s) (h : ∀ J ∈ s.main.history, QueueOk s J) :
    ∀ J ∈ s'.main.history, QueueOk s' J := by
  intro J hJ
  rw [hn.history, List.mem_append, List.mem_singleton] at hJ
  rcases hJ with hJ | rfl
  · refine ⟨fun p hp => ?_, ?_⟩
    · rw [hn.queues p ((hl.jobs.ok J hJ).queueLt p hp)]
      exact (h J hJ).index p hp
    · rw [hn.takers hl hJ, hn.mWorkersSize]
      exact (h J hJ).takers
  · refine ⟨fun p hp => ?_, ?_⟩
    · rw [hn.fresh p hp]
      rfl
    · rw [hn.takers_nil]
      exact fun t ht => absurd ht List.not_mem_nil

/-- A step of the main thread, as the workers see it. -/
structure MainStep (s s' : Pool) : Prop where
  aside : ∀ w, Aside s s' w
  size : s'.main.mWorkersSize = s.main.mWorkersSize
  queue : (∀ J ∈ s.main.history, QueueOk s J) → ∀ J ∈ s'.main.history, QueueOk s' J

theorem mainStep_of_queues (ht : ∀ w, Touched (s.workers w) (s'.workers w)) (hm : s'.main.history = s.main.history)
    (hq : s'.queues = s.queues) (hn : s'.main.mWorkersSize = s.main.mWorkersSize) : MainStep s s' where
  aside := aside_of_queues ht hm hq
  size := hn
  queue := by
    rw [hm]
    exact fun h J hJ => (h J hJ).of_queues hq hn

theorem LiveStep.main_or_worker (hl : Live s) (h : LiveStep b s s') :
    MainStep s s' ∨ ∃ w back, w < s.main.mWorkersSize ∧ WorkerStep b s w back s' := by
  cases h with
  | newJob hn => exact .inl ⟨hn.aside hl, hn.mWorkersSize, hn.queueOk hl⟩
  | quiet hq =>
    have hm : s'.main.history = s.main.history := by
      unfold Main.history
      rw [hq.jobs]
    exact .inl (mainStep_of_queues (fun w => .of_eq (congrFun hq.workers w)) hm hq.queues hq.mWorkersSize)
  | loadResults => exact .inl (mainStep_of_queues (touched_setWorker .loaded) rfl rfl rfl)
  | post _ _ => exact .inl (mainStep_of_queues (touched_setWorker .job) rfl rfl rfl)
  | posted _ _ => exact .inl (mainStep_of_queues (fun _ => .same) rfl rfl rfl)
  | worker hw h => exact .inr ⟨_, _, hw, h⟩

theorem LiveStep.contentInv (hl : Live s) (h : ContentInv b s) (hs : LiveStep b s s') : ContentInv b s' := by
  have hwake := hs.wakeInv hl h.wake
  rcases hs.main_or_worker hl with hm | ⟨u, back, hu, hw⟩
  · refine ⟨hwake, hm.queue h.queue, fun w hlt => ?_, fun w hlt => ?_⟩
    · rw [hm.size] at hlt
      exact (hm.aside w).bufOk (h.buf w hlt)
    · rw [hm.size] at hlt
      exact (hm.aside w).outOk (h.wake.stamps.stamp w) (h.out w hlt)
  · have hh := hl.jobs.toHistoryOk
    have hstamp := h.wake.stamps.stamp
    refine ⟨hwake, ?_, fun w hlt => ?_, fun w hlt => ?_⟩
    · rw [hw.main]
      exact fun J hJ => hw.queueOk hu (h.queue J hJ)
    · rw [hw.main] at hlt
      by_cases he : w = u
      · subst he
        exact hw.bufOk hh (hstamp w) (h.buf w hlt) (h.out w hlt)
      · exact (hw.aside hh (hstamp u).job he).bufOk (h.buf w hlt)
    · rw [hw.main] at hlt
      by_cases he : w = u
      · subst he
        exact hw.outOk hl h hlt
      · exact (hw.aside hh (hstamp u).job he).outOk (hstamp w) (h.out w hlt)

theorem Prepared.contentInv (h : Prepared s) : ContentInv b s.start := by
  have hwake := h.wakeInv
  have hhist : s.start.main.history = [{}] := by
    unfold Main.history
    rw [(start_keeps s).jobs, h.none]
  have hinit : ∀ J ∈ s.start.main.history, J = {} := by
    rw [hhist]
    exact fun J hJ => List.mem_singleton.1 hJ
  have hres : ∀ w, ResOk b s.start w {} := by
    intro w
    refine ⟨{}, ?_, ⟨rfl, rfl⟩, nofun⟩
    rw [hhist]
    exact List.mem_singleton_self _
  have hW : ∀ w, s.start.workers w = Worker.new w s.main.mThreads := by
    rw [h.start_eq]
    exact fun _ => rfl
  refine ⟨hwake, fun J hJ => ?_, fun w _ => ⟨?_, ?_, ?_⟩, fun w _ => ?_⟩
  · rw [hinit J hJ]
    exact ⟨nofun, fun t ht => absurd ht List.not_mem_nil⟩
  · rw [hW]
    exact hres w
  · rw [hW]
    exact hres w
  · intro J hJ _
    rw [hinit J hJ]
    exact List.not_mem_nil
  · unfold OutOk
    rw [hW]
    exact fun _ => nofun

/-! ## Worker 0 -/

theorem mem_subtree_zero {t : ℕ} (h : t < 64) : t ∈ subtree 0 := by
  unfold subtree
  rw [Finset.mem_Ico]
  exact ⟨Nat.zero_le t, h.trans_eq (by decide)⟩

/-- Worker 0's subtree is the whole pool. -/
theorem Complete.rows {J : Job} {q : Shared Query} {l : List MatchedItem} (hl : Live s) (hq : QueueOk s J)
    (h : Complete b s J (subtree 0) l) (hJ : J.mQuery = some q) :
    Rows b J.mItems q.val (List.range J.mItems.length) l ∧ Sorted l := by
  obtain ⟨hex, hrows, hsorted⟩ := h q hJ
  have hall : ∀ t ∈ s.takers J, t ∈ subtree 0 := fun t ht => mem_subtree_zero ((hq.takers t ht).trans_le hl.size)
  rw [claimed_all hall hex] at hrows
  exact ⟨hrows, hsorted⟩

end

/-- The results are those of one of the jobs: each of its items that the query matches, once and in order. -/
def PublishedExactly (b : Build) (jobs : List Job) (R : Results) (q : Shared Query) : Prop :=
  ∃ J ∈ jobs, (J.mItems.length = R.mItemsTick ∧ J.mQueryTick = R.mQueryTick ∧ J.mQuery = some q) ∧
    (∀ J' ∈ jobs, J'.mItems.length = R.mItemsTick → J'.mQueryTick = R.mQueryTick → J' = J) ∧
    (∀ i < J.mItems.length, q.val.match b (J.mItems.getD i []) = true →
      (matchedItem b J.mItems q.val i).isSome = true) ∧
    R.mItems.Perm ((List.range J.mItems.length).filterMap (matchedItem b J.mItems q.val)) ∧
    R.mItems.Pairwise (· < ·)

/-- **What worker 0 publishes is exactly what the query matches.** -/
theorem published_exact (b : Build) (hardwareConcurrency : ℕ) (pre post : List Pool.Action) (s : Pool)
    (hpre : ∀ a ∈ pre, a.Prepares) (hpost : ∀ a ∈ post, a.NoStop)
    (hrun : run (Pool.step b) (Pool.init hardwareConcurrency) (pre ++ .call .start :: post) = some s)
    (hn : s.main.mItems.length < 2 ^ 32) (q : Shared Query) (hq : (s.workers 0).mOutput.committed.mQuery = some q) :
    PublishedExactly b s.main.jobs (s.workers 0).mOutput.committed q := by
  obtain ⟨hl, h⟩ := live_run (ContentInv b) (fun _ hp => hp.contentInv) (fun _ _ hl h hs => hs.contentInv hl h)
    hpre hpost hrun
  have hm := hl.jobs.toHistoryOk
  obtain ⟨J, hJ, hstamp, hcomplete⟩ := (h.buf 0 hl.pos).committed
  have hJq : J.mQuery = some q := hstamp.query.symm.trans hq
  have hticks := Prod.mk.inj hstamp.tick
  obtain ⟨hrows, hsorted⟩ := hcomplete.rows hl (h.queue J hJ) hJq
  have hlen : J.mItems.length ≤ s.main.mItems.length := (hm.le_current hJ).1.trans hl.jobs.items.length_le
  have hmem : J ∈ s.main.jobs := by
    rcases List.mem_cons.1 hJ with rfl | hJ
    · cases hJq
    · exact hJ
  refine ⟨J, hmem, ⟨hticks.1.symm, hticks.2.symm, hJq⟩, fun J' hJ' hi ht => ?_, fun i hi => ?_, hrows.perm, ?_⟩
  · have htick : J'.tick = J.tick := Prod.ext (hi.trans hticks.1) (ht.trans hticks.2)
    exact hm.eq_of_tick (List.mem_cons_of_mem _ hJ') hJ htick
  · exact hrows.defined i (List.mem_range.2 hi)
  · exact hrows.strict hsorted (fun i hi _ => hi.trans_le (hlen.trans hn.le))

theorem published_exact_sample : PublishedExactly .scalar sample.main.jobs (sample.workers 0).mOutput.committed
    { addr := 0, val := Query.parse [39, 97] } := by
  apply published_exact .scalar 2 samplePre samplePost sample samplePre_prepares samplePost_noStop sample_run
  · decide +kernel
  · decide +kernel

end Fzx
