import Fzx.MergeTree
import Fzx.Lib.Loop
/-!
# MergeLoops — merge2 with its iterators (worker.cpp)

`merge2` once more, now round by round over the vector that is reused: an index for an iterator, every read and every
write checked, with a fault outside its vector, and a loop cut after a number of rounds.
-/
namespace Fzx

open Lib

namespace Loops

/-- `vector::resize`: what is cut off is lost, what is new is the default. -/
def resize (r : List MatchedItem) (n : ℕ) : List MatchedItem := r.take n ++ List.replicate (n - r.length) { mValue := 0 }

structure MergeIters where
  r : List MatchedItem
  ai : ℕ
  bi : ℕ
  ri : ℕ

namespace MergeIters

/-- `*ri++ = x`. -/
def put (st : MergeIters) (x : MatchedItem) : Option MergeIters :=
  if st.ri < st.r.length then some { st with r := st.r.set st.ri x, ri := st.ri + 1 } else none

/-- `*ri++ = *ai++`. -/
def copyA (a : List MatchedItem) (st : MergeIters) : Option MergeIters :=
  a[st.ai]?.bind (fun x => { st with ai := st.ai + 1 }.put x)

/-- `*ri++ = *bi++`. -/
def copyB (b : List MatchedItem) (st : MergeIters) : Option MergeIters :=
  b[st.bi]?.bind (fun y => { st with bi := st.bi + 1 }.put y)

end MergeIters

open MergeIters

def mergeRound (a b : List MatchedItem) (st : MergeIters) : Option (MergeIters ⊕ MergeIters) :=
  if st.ai ≠ a.length ∧ st.bi ≠ b.length then
    (a[st.ai]?.bind (fun x => b[st.bi]?.bind (fun y => if x < y then st.copyA a else st.copyB b))).map .inl
  else some (.inr st)

def restRoundA (a : List MatchedItem) (st : MergeIters) : Option (MergeIters ⊕ MergeIters) :=
  if st.ai ≠ a.length then (st.copyA a).map .inl else some (.inr st)

def restRoundB (b : List MatchedItem) (st : MergeIters) : Option (MergeIters ⊕ MergeIters) :=
  if st.bi ≠ b.length then (st.copyB b).map .inl else some (.inr st)

/-- What `r` becomes.  That `ri` ends at the end of `r` is an assertion. -/
def merge2 (rounds : ℕ) (r a b : List MatchedItem) : Option (List MatchedItem) :=
  (loop (mergeRound a b) rounds { r := resize r (a.length + b.length), ai := 0, bi := 0, ri := 0 }).bind (fun st =>
    (loop (restRoundA a) rounds st).bind (fun st =>
      (loop (restRoundB b) rounds st).bind (fun st => if st.ri = st.r.length then some st.r else none)))

@[simp] theorem length_resize (r : List MatchedItem) (n : ℕ) : (resize r n).length = n := by
  rw [resize, List.length_append, List.length_take, List.length_replicate]
  omega

/-! ## The merge of two suffixes -/

theorem merge2_cons_of_lt {x y : MatchedItem} (h : x < y) (a b : List MatchedItem) :
    Fzx.merge2 (x :: a) (y :: b) = x :: Fzx.merge2 a (y :: b) := by
  have hk : (x :: a).length + (y :: b).length = a.length + (y :: b).length + 1 := Nat.succ_add _ _
  rw [Fzx.merge2, hk, mergeLoop, if_pos h]
  rfl

theorem merge2_cons_of_not_lt {x y : MatchedItem} (h : ¬ x < y) (a b : List MatchedItem) :
    Fzx.merge2 (x :: a) (y :: b) = y :: Fzx.merge2 (x :: a) b := by
  have hk : (x :: a).length + (y :: b).length = (x :: a).length + b.length + 1 := rfl
  rw [Fzx.merge2, hk, mergeLoop, if_neg h]
  rfl

theorem merge2_nil : ∀ a : List MatchedItem, Fzx.merge2 a [] = a
  | [] => rfl
  | x :: a => congrArg (x :: ·) (merge2_nil a)

theorem nil_merge2 : ∀ b : List MatchedItem, Fzx.merge2 [] b = b
  | [] => rfl
  | y :: b => by
    have hk : ([] : List MatchedItem).length + (y :: b).length = ([] : List MatchedItem).length + b.length + 1 := rfl
    rw [Fzx.merge2, hk, mergeLoop]
    exact congrArg (y :: ·) (nil_merge2 b)

/-! ## The invariant -/

variable {r a b : List MatchedItem} {st : MergeIters}

/-- What is written so far and the merge of what is not read yet are the merge of the two vectors. -/
structure Merging (a b : List MatchedItem) (st : MergeIters) : Prop where
  ai : st.ai ≤ a.length
  bi : st.bi ≤ b.length
  ri : st.ri = st.ai + st.bi
  room : st.r.length = a.length + b.length
  written : st.r.take st.ri ++ Fzx.merge2 (a.drop st.ai) (b.drop st.bi) = Fzx.merge2 a b

theorem merging_init : Merging a b { r := resize r (a.length + b.length), ai := 0, bi := 0, ri := 0 } :=
  ⟨Nat.zero_le _, Nat.zero_le _, rfl, length_resize _ _, rfl⟩

theorem take_set_succ {l : List MatchedItem} {i : ℕ} (hi : i < l.length) (x : MatchedItem) :
    (l.set i x).take (i + 1) = l.take i ++ [x] := by
  have hset : i < (l.set i x).length := by rwa [List.length_set]
  rw [List.take_succ_eq_append_getElem hset, List.getElem_set_self, List.take_set_of_le (Nat.le_refl i)]

/-- **One item of `a`**, if it is what the merge goes on with. -/
theorem Merging.copyA (h : Merging a b st) (hi : st.ai < a.length)
    (hm : Fzx.merge2 (a.drop st.ai) (b.drop st.bi) = a[st.ai] :: Fzx.merge2 (a.drop (st.ai + 1)) (b.drop st.bi)) :
    ∃ st', st.copyA a = some st' ∧ Merging a b st' ∧ st'.ai = st.ai + 1 ∧ st'.bi = st.bi := by
  have hroom : st.ri < st.r.length := by
    have := h.ri
    have := h.bi
    have := h.room
    omega
  refine ⟨{ st with r := st.r.set st.ri a[st.ai], ai := st.ai + 1, ri := st.ri + 1 }, ?_, ?_, rfl, rfl⟩
  · rw [MergeIters.copyA, List.getElem?_eq_getElem hi, Option.bind_some, put, if_pos hroom]
  · refine ⟨hi, h.bi, ?_, ?_, ?_⟩
    · dsimp only
      rw [h.ri, Nat.add_right_comm]
    · rw [List.length_set]
      exact h.room
    · rw [take_set_succ hroom, List.append_assoc, List.singleton_append, ← hm]
      exact h.written

/-- **One item of `b`.** -/
theorem Merging.copyB (h : Merging a b st) (hi : st.bi < b.length)
    (hm : Fzx.merge2 (a.drop st.ai) (b.drop st.bi) = b[st.bi] :: Fzx.merge2 (a.drop st.ai) (b.drop (st.bi + 1))) :
    ∃ st', st.copyB b = some st' ∧ Merging a b st' ∧ st'.ai = st.ai ∧ st'.bi = st.bi + 1 := by
  have hroom : st.ri < st.r.length := by
    have := h.ri
    have := h.ai
    have := h.room
    omega
  refine ⟨{ st with r := st.r.set st.ri b[st.bi], bi := st.bi + 1, ri := st.ri + 1 }, ?_, ?_, rfl, rfl⟩
  · rw [MergeIters.copyB, List.getElem?_eq_getElem hi, Option.bind_some, put, if_pos hroom]
  · refine ⟨h.ai, hi, ?_, ?_, ?_⟩
    · dsimp only
      rw [h.ri, Nat.add_assoc]
    · rw [List.length_set]
      exact h.room
    · rw [take_set_succ hroom, List.append_assoc, List.singleton_append, ← hm]
      exact h.written

/-! ## The rounds -/

/-- **The first loop** ends with one of the vectors read. -/
theorem Merging.mergeRound (h : Merging a b st) :
    (∃ st', mergeRound a b st = some (.inr st') ∧ Merging a b st' ∧ (st'.ai = a.length ∨ st'.bi = b.length)) ∨
      ∃ st', mergeRound a b st = some (.inl st') ∧ Merging a b st' ∧
        a.length + b.length - (st'.ai + st'.bi) < a.length + b.length - (st.ai + st.bi) := by
  unfold Loops.mergeRound
  split
  · rename_i hne
    right
    have hai := Nat.lt_of_le_of_ne h.ai hne.1
    have hbi := Nat.lt_of_le_of_ne h.bi hne.2
    have ha := List.drop_eq_getElem_cons hai
    have hb := List.drop_eq_getElem_cons hbi
    rw [List.getElem?_eq_getElem hai, List.getElem?_eq_getElem hbi, Option.bind_some, Option.bind_some]
    split
    · rename_i hlt
      have hm := merge2_cons_of_lt hlt (a.drop (st.ai + 1)) (b.drop (st.bi + 1))
      rw [← ha, ← hb] at hm
      obtain ⟨st', hc, h', ha', hb'⟩ := h.copyA hai hm
      exact ⟨st', by rw [hc, Option.map_some], h', by omega⟩
    · rename_i hlt
      have hm := merge2_cons_of_not_lt hlt (a.drop (st.ai + 1)) (b.drop (st.bi + 1))
      rw [← ha, ← hb] at hm
      obtain ⟨st', hc, h', ha', hb'⟩ := h.copyB hbi hm
      exact ⟨st', by rw [hc, Option.map_some], h', by omega⟩
  · rename_i hne
    exact .inl ⟨st, rfl, h, by omega⟩

/-- **The second loop** copies the rest of `a`, if there is one. -/
theorem Merging.restRoundA (h : Merging a b st) (hend : st.ai = a.length ∨ st.bi = b.length) :
    (∃ st', restRoundA a st = some (.inr st') ∧ Merging a b st' ∧ st'.ai = a.length) ∨
      ∃ st', restRoundA a st = some (.inl st') ∧ (Merging a b st' ∧ (st'.ai = a.length ∨ st'.bi = b.length)) ∧
        a.length - st'.ai < a.length - st.ai := by
  unfold Loops.restRoundA
  split
  · rename_i hne
    right
    have hai := Nat.lt_of_le_of_ne h.ai hne
    have hbi : st.bi = b.length := hend.resolve_left hne
    have hm : Fzx.merge2 (a.drop st.ai) (b.drop st.bi) = a[st.ai] :: Fzx.merge2 (a.drop (st.ai + 1)) (b.drop st.bi) := by
      rw [hbi, List.drop_length, merge2_nil, merge2_nil, List.drop_eq_getElem_cons hai]
    obtain ⟨st', hc, h', ha', hb'⟩ := h.copyA hai hm
    exact ⟨st', by rw [hc, Option.map_some], ⟨h', .inr (hb'.trans hbi)⟩, by omega⟩
  · rename_i heq
    exact .inl ⟨st, rfl, h, not_not.1 heq⟩

/-- **The third loop** copies the rest of `b`. -/
theorem Merging.restRoundB (h : Merging a b st) (hai : st.ai = a.length) :
    (∃ st', restRoundB b st = some (.inr st') ∧ Merging a b st' ∧ st'.ai = a.length ∧ st'.bi = b.length) ∨
      ∃ st', restRoundB b st = some (.inl st') ∧ (Merging a b st' ∧ st'.ai = a.length) ∧
        b.length - st'.bi < b.length - st.bi := by
  unfold Loops.restRoundB
  split
  · rename_i hne
    right
    have hbi := Nat.lt_of_le_of_ne h.bi hne
    have hm : Fzx.merge2 (a.drop st.ai) (b.drop st.bi) = b[st.bi] :: Fzx.merge2 (a.drop st.ai) (b.drop (st.bi + 1)) := by
      rw [hai, List.drop_length, nil_merge2, nil_merge2, List.drop_eq_getElem_cons hbi]
    obtain ⟨st', hc, h', ha', hb'⟩ := h.copyB hbi hm
    exact ⟨st', by rw [hc, Option.map_some], ⟨h', ha'.trans hai⟩, by omega⟩
  · rename_i heq
    exact .inl ⟨st, rfl, h, hai, not_not.1 heq⟩

/-- **`merge2` does not fault**, whatever was in `r`, and gives what the function of `MergeTree` gives. -/
theorem merge2_eq (r a b : List MatchedItem) : ∃ n, ∀ rounds, n ≤ rounds → merge2 rounds r a b = some (Fzx.merge2 a b) := by
  obtain ⟨s₁, h₁, hm₁, hend₁⟩ := Returns.of_variant (Merging a b)
    (fun st => Merging a b st ∧ (st.ai = a.length ∨ st.bi = b.length)) (fun st => a.length + b.length - (st.ai + st.bi))
    (fun _ h => h.mergeRound) _ (merging_init (r := r))
  obtain ⟨s₂, h₂, hm₂, hend₂⟩ := Returns.of_variant (fun st => Merging a b st ∧ (st.ai = a.length ∨ st.bi = b.length))
    (fun st => Merging a b st ∧ st.ai = a.length) (fun st => a.length - st.ai) (fun _ h => h.1.restRoundA h.2) s₁
    ⟨hm₁, hend₁⟩
  obtain ⟨s₃, h₃, hm₃, hai, hbi⟩ := Returns.of_variant (fun st => Merging a b st ∧ st.ai = a.length)
    (fun st => Merging a b st ∧ st.ai = a.length ∧ st.bi = b.length) (fun st => b.length - st.bi)
    (fun _ h => h.1.restRoundB h.2) s₂ ⟨hm₂, hend₂⟩
  obtain ⟨n₁, h₁⟩ := h₁.loop
  obtain ⟨n₂, h₂⟩ := h₂.loop
  obtain ⟨n₃, h₃⟩ := h₃.loop
  have hri : s₃.ri = s₃.r.length := by rw [hm₃.ri, hai, hbi, hm₃.room]
  have hr : s₃.r = Fzx.merge2 a b := by
    have hw := hm₃.written
    rwa [hri, List.take_length, hai, hbi, List.drop_length, List.drop_length, merge2_nil, List.append_nil] at hw
  refine ⟨max n₁ (max n₂ n₃), fun rounds hr' => ?_⟩
  rw [merge2, h₁ rounds (by omega), Option.bind_some, h₂ rounds (by omega), Option.bind_some, h₃ rounds (by omega),
    Option.bind_some, if_pos hri, hr]

/-- **`merge2` merges**: with every index inside its vector and whatever was in `r`, it returns with `r` of exactly the
items of both vectors, in order. -/
theorem merge2_merges (r a b : List MatchedItem) (ha : Sorted a) (hb : Sorted b) :
    ∃ out n, (∀ rounds, n ≤ rounds → merge2 rounds r a b = some out) ∧ out.length = a.length + b.length ∧
      Sorted out ∧ out.Perm (a ++ b) := by
  obtain ⟨n, hn⟩ := merge2_eq r a b
  have hp := merge2_perm a b
  exact ⟨Fzx.merge2 a b, n, hn, hp.length_eq.trans List.length_append, merge2_sorted ha hb, hp⟩

/-- Over a vector that was longer before. -/
theorem merge2_merges_four : ∃ out n, (∀ rounds, n ≤ rounds →
      merge2 rounds [⟨9⟩, ⟨9⟩, ⟨9⟩, ⟨9⟩, ⟨9⟩] [⟨1⟩, ⟨3⟩] [⟨-2⟩, ⟨3⟩] = some out) ∧ out.length = 4 ∧ Sorted out ∧
    out.Perm [⟨1⟩, ⟨3⟩, ⟨-2⟩, ⟨3⟩] :=
  merge2_merges [⟨9⟩, ⟨9⟩, ⟨9⟩, ⟨9⟩, ⟨9⟩] [⟨1⟩, ⟨3⟩] [⟨-2⟩, ⟨3⟩] (by unfold Sorted; decide) (by unfold Sorted; decide)

end Loops
end Fzx
