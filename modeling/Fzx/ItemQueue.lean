import Fzx.Lib.Run
/-!
# ItemQueue — chunks taken up to a limit (item_queue.hpp)

Any number of threads call `take(n, max)` on one fresh counter until each has an empty range.  The atomics are relaxed: a
load, also that of an exchange that fails, gives the counter's value or any that it had before; an exchange succeeds on
the value itself only, and may fail on it too.  The counter is a plain number: it is taken not to wrap.
-/
namespace Fzx

open Lib

namespace ItemQueue

/-- Where a thread is: between two calls, behind a load, in front of the exchange, or through with an empty range. -/
inductive Pc where
  | idle
  | test (expected : ℕ)
  | cas (expected desired : ℕ)
  | done
deriving DecidableEq

structure World where
  mIndex : ℕ
  past : List ℕ
  pc : ℕ → Pc
  ranges : List (ℕ × ℕ)

namespace World

def init : World := { mIndex := 0, past := [], pc := fun _ => .idle, ranges := [] }

def goto (w : World) (t : ℕ) (pc : Pc) : World := { w with pc := Function.update w.pc t pc }

/-- A call returns a range; the thread goes on unless it is empty. -/
def give (w : World) (t : ℕ) (r : ℕ × ℕ) : World :=
  if r.1 = r.2 then w.goto t .done else { w.goto t .idle with ranges := w.ranges ++ [r] }

/-- What a relaxed load may give. -/
def Seen (w : World) (v : ℕ) : Prop := v = w.mIndex ∨ v ∈ w.past

instance (w : World) (v : ℕ) : Decidable (w.Seen v) := inferInstanceAs (Decidable (_ ∨ _))

end World

open World

inductive Action where
  | load (t v : ℕ)
  | test (t : ℕ)
  | exchange (t : ℕ)
  | fail (t v : ℕ)

/-- `take(n, max)`, called by `threads`. -/
def step (n max : ℕ) (threads : Finset ℕ) (w : World) : Action → Option World
  | .load t v =>
    match w.pc t with
    | .idle => if t ∈ threads ∧ w.Seen v then some (w.goto t (.test v)) else none
    | _ => none
  | .test t =>
    match w.pc t with
    | .test expected =>
      let desired := min (expected + n) max
      some (if desired = max then w.give t (0, 0) else w.goto t (.cas expected desired))
    | _ => none
  | .exchange t =>
    match w.pc t with
    | .cas expected desired =>
      if w.mIndex = expected then
        some ({ w with mIndex := expected + n, past := w.mIndex :: w.past }.give t (expected, desired))
      else none
    | _ => none
  | .fail t v =>
    match w.pc t with
    | .cas _ _ => if w.Seen v then some (w.goto t (.test v)) else none
    | _ => none

/-- The ranges are disjoint, none has more than `n` elements, and together they are the numbers below `max`. -/
def Splits (n max : ℕ) (ranges : List (ℕ × ℕ)) : Prop :=
  ranges.Pairwise (fun r s => r.2 ≤ s.1 ∨ s.2 ≤ r.1) ∧ (∀ r ∈ ranges, r.2 - r.1 ≤ n) ∧
    ∀ i, (∃ r ∈ ranges, r.1 ≤ i ∧ i < r.2) ↔ i < max

/-! ## The first chunks -/

/-- The first `k` chunks of `n` items. -/
def chunks (n k : ℕ) : List (ℕ × ℕ) := (List.range k).map (fun i => (i * n, (i + 1) * n))

theorem chunks_succ (n k : ℕ) : chunks n (k + 1) = chunks n k ++ [(k * n, (k + 1) * n)] := by
  rw [chunks, List.range_succ, List.map_append, List.map_singleton, chunks]

theorem pairwise_chunks (n k : ℕ) : (chunks n k).Pairwise (fun r s => r.2 ≤ s.1 ∨ s.2 ≤ r.1) := by
  rw [chunks, List.pairwise_map]
  exact List.pairwise_lt_range.imp (fun hlt => .inl (Nat.mul_le_mul_right n hlt))

theorem length_of_mem_chunks {n k : ℕ} {r : ℕ × ℕ} (hr : r ∈ chunks n k) : r.2 - r.1 ≤ n := by
  obtain ⟨i, -, rfl⟩ := List.mem_map.1 hr
  dsimp only
  rw [Nat.succ_mul, Nat.add_sub_cancel_left]

/-- **The first `k` chunks are the numbers below `k * n`.** -/
theorem mem_chunks_iff {n : ℕ} (hn : 0 < n) (k i : ℕ) : (∃ r ∈ chunks n k, r.1 ≤ i ∧ i < r.2) ↔ i < k * n := by
  constructor
  · rintro ⟨r, hr, -, hlt⟩
    obtain ⟨j, hj, rfl⟩ := List.mem_map.1 hr
    exact Nat.lt_of_lt_of_le hlt (Nat.mul_le_mul_right n (List.mem_range.1 hj))
  · intro hlt
    refine ⟨(i / n * n, (i / n + 1) * n), List.mem_map.2 ⟨i / n, ?_, rfl⟩, Nat.div_mul_le_self i n, ?_⟩
    · exact List.mem_range.2 ((Nat.div_lt_iff_lt_mul hn).2 hlt)
    · exact Nat.lt_mul_of_div_lt (Nat.lt_succ_self _) hn

/-! ## The invariant -/

/-- What a thread knows when `k` chunks are handed out. -/
def PcOk (n max k : ℕ) : Pc → Prop
  | .idle => True
  | .test expected => ∃ i ≤ k, expected = i * n
  | .cas expected desired => (∃ i ≤ k, expected = i * n) ∧ desired = expected + n ∧ desired < max
  | .done => ∃ i ≤ k, max ≤ (i + 1) * n

/-- The first `k` chunks are handed out, all of them whole and below `max`. -/
structure Inv (n max k : ℕ) (w : World) : Prop where
  index : w.mIndex = k * n
  past : ∀ v ∈ w.past, ∃ i ≤ k, v = i * n
  ranges : w.ranges = chunks n k
  below : k = 0 ∨ k * n < max
  pc : ∀ t, PcOk n max k (w.pc t)

variable {n max k : ℕ} {threads : Finset ℕ} {w w' : World}

theorem inv_init (n max : ℕ) : Inv n max 0 World.init where
  index := (Nat.zero_mul n).symm
  past := nofun
  ranges := rfl
  below := .inl rfl
  pc := fun _ => trivial

theorem PcOk.succ {pc : Pc} (h : PcOk n max k pc) : PcOk n max (k + 1) pc := by
  cases pc with
  | idle => trivial
  | test expected =>
    obtain ⟨i, hi, he⟩ := h
    exact ⟨i, Nat.le_succ_of_le hi, he⟩
  | cas expected desired =>
    obtain ⟨⟨i, hi, he⟩, hd⟩ := h
    exact ⟨⟨i, Nat.le_succ_of_le hi, he⟩, hd⟩
  | done =>
    obtain ⟨i, hi, hm⟩ := h
    exact ⟨i, Nat.le_succ_of_le hi, hm⟩

/-- A load gives the start of a chunk. -/
theorem Inv.seen (h : Inv n max k w) {v : ℕ} (hv : w.Seen v) : ∃ i ≤ k, v = i * n := by
  rcases hv with rfl | hv
  · exact ⟨k, Nat.le_refl k, h.index⟩
  · exact h.past v hv

theorem Inv.goto (h : Inv n max k w) (t : ℕ) {pc : Pc} (hpc : PcOk n max k pc) : Inv n max k (w.goto t pc) where
  index := h.index
  past := h.past
  ranges := h.ranges
  below := h.below
  pc := fun u => by
    change PcOk n max k (Function.update w.pc t pc u)
    by_cases hu : u = t
    · rw [hu, Function.update_self]
      exact hpc
    · rw [Function.update_of_ne hu]
      exact h.pc u

/-- The test: an empty range when the chunk does not end below `max`. -/
theorem inv_test (h : Inv n max k w) {t expected : ℕ} (hpc : w.pc t = .test expected) :
    Inv n max k
      (if min (expected + n) max = max then w.give t (0, 0) else w.goto t (.cas expected (min (expected + n) max))) := by
  have hok := h.pc t
  rw [hpc] at hok
  obtain ⟨i, hi, he⟩ := hok
  split
  · rename_i hmax
    refine h.goto t ⟨i, hi, ?_⟩
    rw [Nat.succ_mul, ← he]
    omega
  · rename_i hmax
    have hlt : expected + n < max := by omega
    rw [Nat.min_eq_left (Nat.le_of_lt hlt)]
    exact h.goto t ⟨⟨i, hi, he⟩, rfl, hlt⟩

/-- **The exchange hands out the next chunk.** -/
theorem inv_exchange (h : Inv n max k w) (hn : 0 < n) {t expected desired : ℕ} (hpc : w.pc t = .cas expected desired)
    (he : w.mIndex = expected) :
    Inv n max (k + 1)
      ({ w with mIndex := expected + n, past := w.mIndex :: w.past }.give t (expected, desired)) := by
  have hok := h.pc t
  rw [hpc] at hok
  obtain ⟨-, hd, hlt⟩ := hok
  have hk : expected = k * n := he.symm.trans h.index
  have hnext : expected + n = (k + 1) * n := by rw [Nat.succ_mul, ← hk]
  have hne : expected ≠ desired := by omega
  have hnew : Inv n max (k + 1)
      { w with mIndex := expected + n, past := w.mIndex :: w.past, ranges := w.ranges ++ [(expected, desired)] } := by
    refine ⟨hnext, fun v hv => ?_, ?_, .inr (by omega), fun u => (h.pc u).succ⟩
    · rcases List.mem_cons.1 hv with rfl | hv
      · exact ⟨k, Nat.le_succ k, h.index⟩
      · obtain ⟨i, hi, hv⟩ := h.past v hv
        exact ⟨i, Nat.le_succ_of_le hi, hv⟩
    · dsimp only
      rw [chunks_succ, ← h.ranges, hd, hnext, hk]
  unfold give
  rw [if_neg hne]
  exact hnew.goto t trivial

/-- **Every step keeps the invariant.** -/
theorem inv_step (hn : 0 < n) {a : Action} (h : ∃ k, Inv n max k w) (hs : step n max threads w a = some w') :
    ∃ k, Inv n max k w' := by
  obtain ⟨k, h⟩ := h
  unfold step at hs
  cases a with
  | load t v =>
    cases hpc : w.pc t with
    | idle =>
      simp only [hpc, Option.ite_none_right_eq_some] at hs
      obtain ⟨⟨-, hv⟩, hs⟩ := hs
      cases hs
      exact ⟨k, h.goto t (h.seen hv)⟩
    | _ => simp only [hpc, reduceCtorEq] at hs
  | test t =>
    cases hpc : w.pc t with
    | test expected =>
      simp only [hpc] at hs
      cases hs
      exact ⟨k, inv_test h hpc⟩
    | _ => simp only [hpc, reduceCtorEq] at hs
  | exchange t =>
    cases hpc : w.pc t with
    | cas expected desired =>
      simp only [hpc, Option.ite_none_right_eq_some] at hs
      obtain ⟨he, hs⟩ := hs
      cases hs
      exact ⟨k + 1, inv_exchange h hn hpc he⟩
    | _ => simp only [hpc, reduceCtorEq] at hs
  | fail t v =>
    cases hpc : w.pc t with
    | cas expected desired =>
      simp only [hpc, Option.ite_none_right_eq_some] at hs
      obtain ⟨hv, hs⟩ := hs
      cases hs
      exact ⟨k, h.goto t (h.seen hv)⟩
    | _ => simp only [hpc, reduceCtorEq] at hs

theorem inv_run (hn : 0 < n) {actions : List Action} (hrun : run (step n max threads) World.init actions = some w) :
    ∃ k, Inv n max k w :=
  run_inv (fun w => ∃ k, Inv n max k w) (fun _ _ _ h hs => inv_step hn h hs) actions _ w ⟨0, inv_init n max⟩ hrun

/-! ## What is handed out -/

/-- Whole chunks below `max` are not all of it, unless there is nothing to hand out. -/
theorem Inv.splits_iff (h : Inv n max k w) (hn : 0 < n) : Splits n max w.ranges ↔ max = 0 := by
  rw [h.ranges]
  constructor
  · rintro ⟨-, -, hcover⟩
    by_contra hmax
    have hlast := (hcover (max - 1)).2 (by omega)
    rw [mem_chunks_iff hn] at hlast
    rcases h.below with rfl | hlt
    · rw [Nat.zero_mul] at hlast
      exact absurd hlast (Nat.not_lt_zero _)
    · omega
  · rintro rfl
    refine ⟨pairwise_chunks n k, fun r hr => length_of_mem_chunks hr, fun i => ?_⟩
    rw [mem_chunks_iff hn]
    rcases h.below with rfl | hlt
    · rw [Nat.zero_mul]
    · exact absurd hlt (Nat.not_lt_zero _)

/-- **When a thread has an empty range**, the chunks handed out are the whole ones that end below `max`. -/
theorem Inv.count_of_done (h : Inv n max k w) (hn : 0 < n) {t : ℕ} (hdone : w.pc t = .done) : k = (max - 1) / n := by
  have hok := h.pc t
  rw [hdone] at hok
  obtain ⟨i, hi, hmax⟩ := hok
  have hle : (i + 1) * n ≤ (k + 1) * n := Nat.mul_le_mul_right n (Nat.succ_le_succ hi)
  have hle : max ≤ (k + 1) * n := Nat.le_trans hmax hle
  have hlow : k * n ≤ max - 1 := by
    rcases h.below with rfl | hlt
    · rw [Nat.zero_mul]
      exact Nat.zero_le _
    · omega
  have hhigh : max - 1 < (k + 1) * n := by
    have hpos : 0 < (k + 1) * n := Nat.mul_pos (Nat.succ_pos k) hn
    omega
  exact (Nat.div_eq_of_lt_le hlow hhigh).symm

/-- **The last chunk is lost**: after every run of `take(n, max)` in which each thread had its empty range, the ranges
split the items exactly if there were none; they are the first whole chunks that end below `max`, each handed out once. -/
theorem take_splits_iff (n max : ℕ) (hn : 1 ≤ n) (threads : Finset ℕ) (actions : List Action) (w : World)
    (hrun : run (step n max threads) World.init actions = some w) (hdone : ∀ t ∈ threads, w.pc t = .done) :
    (Splits n max w.ranges ↔ max = 0) ∧
      (threads.Nonempty → ∀ i, (∃ r ∈ w.ranges, r.1 ≤ i ∧ i < r.2) ↔ i < (max - 1) / n * n) := by
  obtain ⟨k, h⟩ := inv_run hn hrun
  refine ⟨h.splits_iff hn, fun ⟨t, ht⟩ i => ?_⟩
  rw [h.ranges, mem_chunks_iff hn, h.count_of_done hn (hdone t ht)]

/-- One thread, three items in chunks of two. -/
theorem take_splits_iff_three : ∃ w, run (step 2 3 {0}) World.init [.load 0 0, .test 0, .exchange 0, .load 0 2, .test 0] =
      some w ∧ (Splits 2 3 w.ranges ↔ 3 = 0) ∧ ∀ i, (∃ r ∈ w.ranges, r.1 ≤ i ∧ i < r.2) ↔ i < 2 := by
  have h := take_splits_iff 2 3 (by decide) {0} [.load 0 0, .test 0, .exchange 0, .load 0 2, .test 0] _ rfl
    (by decide +kernel)
  exact ⟨_, rfl, h.1, h.2 (Finset.singleton_nonempty 0)⟩

/-- Two hundred and fifty items in chunks of a hundred, by two threads: the last fifty are not handed out. -/
theorem take_loses : ∃ w, run (step 100 250 {0, 1}) World.init [.load 0 0, .load 1 0, .test 0, .test 1, .exchange 1,
      .fail 0 100, .test 0, .exchange 0, .load 0 200, .load 1 200, .test 0, .test 1] = some w ∧
    (∀ t ∈ ({0, 1} : Finset ℕ), w.pc t = .done) ∧ w.ranges = [(0, 100), (100, 200)] ∧ ¬ Splits 100 250 w.ranges := by
  refine ⟨_, rfl, by decide +kernel, rfl, fun h => ?_⟩
  obtain ⟨r, hr, -, hlt⟩ := (h.2.2 249).2 (by decide)
  have hall : ∀ r ∈ [(0, 100), (100, 200)], r.2 ≤ 200 := by decide
  have hle := hall r hr
  omega

end ItemQueue
end Fzx
