import Fzx.Lib.RefCount
/-!
# RcMem — reference counted memory (rc_mem.hpp)

A handle is named by the place it lives at, so that two places may be one handle or two handles to one block.  The memory
order of the counters plays no part here: the handles are used one operation after the other.
-/
namespace Fzx

open Lib

namespace RcMem

section Functions

variable {π β : Type} [DecidableEq π] [DecidableEq β] (s : Refs π β)

def ref (p : Option β) : Refs π β := s.incr p

def unref (p : Option β) : Refs π β := s.decr p

/-- `create`, when the allocation gave `mem`; the handle returned lives at `r`. -/
def create (r : π) (mem : β) : Refs π β :=
  let s := s.alloc mem
  let s := s.start r
  s.setPtr r (some mem)

/-- The default constructor. -/
def construct (p : π) : Refs π β := s.start p

def copyConstruct (p b : π) : Refs π β :=
  let s := s.start p
  let s := s.setPtr p (s.ptr b)
  ref s (s.ptr p)

def moveConstruct (p b : π) : Refs π β :=
  let s := s.start p
  let mPtr := s.ptr b
  let s := s.setPtr b none
  s.setPtr p mPtr

def copyAssign (p b : π) : Refs π β :=
  if p = b ∨ s.ptr p = s.ptr b then s
  else
    let s := unref s (s.ptr p)
    let s := s.setPtr p (s.ptr b)
    ref s (s.ptr p)

def clear (p : π) : Refs π β :=
  let s := unref s (s.ptr p)
  s.setPtr p none

def moveAssign (p b : π) : Refs π β :=
  if p = b then s
  else if s.ptr p = s.ptr b then clear s b
  else
    let s := unref s (s.ptr p)
    let mPtr := s.ptr b
    let s := s.setPtr b none
    s.setPtr p mPtr

/-- The destructor. -/
def destroy (p : π) : Refs π β :=
  let s := unref s (s.ptr p)
  s.finish p

end Functions

/-- The operations of a handle, and of what is built from handles; another one is named by its index. -/
inductive Op where
  | construct
  | copyConstruct (b : ℕ)
  | moveConstruct (b : ℕ)
  | copyAssign (b : ℕ)
  | moveAssign (b : ℕ)
  | clear
  | destroy

/-- What has a lifetime is constructed first and used then. -/
def Op.Legal (live : ℕ → Prop) (i : ℕ) : Op → Prop
  | .construct => ¬ live i
  | .copyConstruct b => ¬ live i ∧ live b
  | .moveConstruct b => ¬ live i ∧ live b
  | .copyAssign b => live i ∧ live b
  | .moveAssign b => live i ∧ live b
  | .clear => live i
  | .destroy => live i

instance (live : ℕ → Prop) [DecidablePred live] (i : ℕ) : ∀ op : Op, Decidable (op.Legal live i)
  | .construct => inferInstanceAs (Decidable (¬ live i))
  | .copyConstruct b => inferInstanceAs (Decidable (¬ live i ∧ live b))
  | .moveConstruct b => inferInstanceAs (Decidable (¬ live i ∧ live b))
  | .copyAssign b => inferInstanceAs (Decidable (live i ∧ live b))
  | .moveAssign b => inferInstanceAs (Decidable (live i ∧ live b))
  | .clear => inferInstanceAs (Decidable (live i))
  | .destroy => inferInstanceAs (Decidable (live i))

section Apply

variable {π β : Type} [DecidableEq π] [DecidableEq β]

def apply (s : Refs π β) (place : ℕ → π) (i : ℕ) : Op → Refs π β
  | .construct => construct s (place i)
  | .copyConstruct b => copyConstruct s (place i) (place b)
  | .moveConstruct b => moveConstruct s (place i) (place b)
  | .copyAssign b => copyAssign s (place i) (place b)
  | .moveAssign b => moveAssign s (place i) (place b)
  | .clear => clear s (place i)
  | .destroy => destroy s (place i)

/-- The handles that live after an operation. -/
def Op.liveAfter (live : Finset π) (p : π) : Op → Finset π
  | .construct => insert p live
  | .copyConstruct _ => insert p live
  | .moveConstruct _ => insert p live
  | .copyAssign _ => live
  | .moveAssign _ => live
  | .clear => live
  | .destroy => live.erase p

variable {s : Refs π β} {p b : π}

/-! ## Every operation keeps the counts -/

theorem counted_create {mem : β} (h : s.Counted) (hp : p ∉ s.live) (hm : mem ∉ s.allocated) : (create s p mem).Counted :=
  (h.start hp).create (Finset.mem_insert_self _ _) (s.ptr_start_self p) hm

theorem counted_copyConstruct (h : s.Counted) (hp : p ∉ s.live) (hb : b ∈ s.live) : (copyConstruct s p b).Counted := by
  have hs := h.start hp
  have ht := hs.take (o := (s.start p).ptr b) (Finset.mem_insert_self _ _) (s.ptr_start_self p)
    (hs.there b (Finset.mem_insert_of_mem hb))
  unfold copyConstruct ref
  dsimp only
  rwa [Refs.ptr_setPtr_self]

theorem counted_moveConstruct (h : s.Counted) (hp : p ∉ s.live) (hb : b ∈ s.live) : (moveConstruct s p b).Counted :=
  (h.start hp).move (Finset.mem_insert_self _ _) (Finset.mem_insert_of_mem hb) (s.ptr_start_self p)
    (fun he => hp (he ▸ hb))

/-- The two shortcuts of a copy assignment leave a handle that already has the block. -/
theorem counted_copyAssign (h : s.Counted) (hp : p ∈ s.live) (hb : b ∈ s.live) : (copyAssign s p b).Counted := by
  unfold copyAssign ref unref
  split
  · exact h
  · rename_i hne
    rw [not_or] at hne
    dsimp only
    have hd := h.drop hp
    have hptr : ((s.decr (s.ptr p)).setPtr p none).ptr b = s.ptr b := by
      rw [Refs.ptr_setPtr_of_ne _ _ (Ne.symm hne.1), Refs.ptr_decr]
    have ht := hd.take (p := p) (o := s.ptr b) (by rwa [Refs.live_setPtr, Refs.live_decr]) (Refs.ptr_setPtr_self _ p _)
      (fun c hc => hd.there b (by rwa [Refs.live_setPtr, Refs.live_decr]) c (hptr.trans hc))
    rw [Refs.ptr_setPtr_self, Refs.ptr_decr]
    rwa [Refs.setPtr_setPtr] at ht

theorem counted_clear (h : s.Counted) (hp : p ∈ s.live) : (clear s p).Counted := h.drop hp

/-- **A move assignment drops one reference** in each of its cases: none onto itself, that of `b` between two handles to
one block, that of `p` otherwise. -/
theorem counted_moveAssign (h : s.Counted) (hp : p ∈ s.live) (hb : b ∈ s.live) : (moveAssign s p b).Counted := by
  unfold moveAssign unref
  split
  · exact h
  · rename_i hne
    split
    · exact counted_clear h hb
    · dsimp only
      have hm := (h.drop hp).move (p := p) (q := b) (by rwa [Refs.live_setPtr, Refs.live_decr])
        (by rwa [Refs.live_setPtr, Refs.live_decr]) (Refs.ptr_setPtr_self _ p _) hne
      rwa [Refs.setPtr_comm _ _ hne, Refs.setPtr_setPtr, Refs.ptr_setPtr_of_ne _ _ (Ne.symm hne)] at hm

theorem counted_destroy (h : s.Counted) (hp : p ∈ s.live) : (destroy s p).Counted := by
  have hf := (h.drop hp).finish (p := p) (Refs.ptr_setPtr_self _ p _)
  rwa [Refs.finish_setPtr] at hf

variable {place : ℕ → π} {i : ℕ} {op : Op}

/-- **Every operation keeps the counts.** -/
theorem counted_apply (h : s.Counted) (hl : op.Legal (fun k => place k ∈ s.live) i) : (apply s place i op).Counted := by
  cases op with
  | construct => exact h.start hl
  | copyConstruct b => exact counted_copyConstruct h hl.1 hl.2
  | moveConstruct b => exact counted_moveConstruct h hl.1 hl.2
  | copyAssign b => exact counted_copyAssign h hl.1 hl.2
  | moveAssign b => exact counted_moveAssign h hl.1 hl.2
  | clear => exact counted_clear h hl
  | destroy => exact counted_destroy h hl

/-! ## What an operation does besides -/

theorem live_copyAssign : (copyAssign s p b).live = s.live := by
  unfold copyAssign
  split
  · rfl
  · exact (Refs.live_incr _ _).trans (Refs.live_decr _ _)

theorem live_moveAssign : (moveAssign s p b).live = s.live := by
  unfold moveAssign
  split
  · rfl
  · split
    · exact Refs.live_decr _ _
    · exact Refs.live_decr _ _

theorem live_destroy : (destroy s p).live = s.live.erase p := congrArg (Finset.erase · p) (Refs.live_decr _ _)

theorem live_apply : (apply s place i op).live = op.liveAfter s.live (place i) := by
  cases op with
  | construct => rfl
  | copyConstruct b => exact Refs.live_incr _ _
  | moveConstruct b => rfl
  | copyAssign b => exact live_copyAssign
  | moveAssign b => exact live_moveAssign
  | clear => exact Refs.live_decr _ _
  | destroy => exact live_destroy

theorem allocated_copyAssign : (copyAssign s p b).allocated = s.allocated := by
  unfold copyAssign
  split
  · rfl
  · exact (Refs.allocated_incr _ _).trans (Refs.allocated_decr _ _)

theorem allocated_moveAssign : (moveAssign s p b).allocated = s.allocated := by
  unfold moveAssign
  split
  · rfl
  · split
    · exact Refs.allocated_decr _ _
    · exact Refs.allocated_decr _ _

theorem allocated_destroy : (destroy s p).allocated = s.allocated := Refs.allocated_decr _ _

theorem allocated_apply : (apply s place i op).allocated = s.allocated := by
  cases op with
  | construct => rfl
  | copyConstruct b => exact Refs.allocated_incr _ _
  | moveConstruct b => rfl
  | copyAssign b => exact allocated_copyAssign
  | moveAssign b => exact allocated_moveAssign
  | clear => exact Refs.allocated_decr _ _
  | destroy => exact Refs.allocated_decr _ _

theorem ptr_moveAssign_of_ne {q : π} (hp : q ≠ p) (hb : q ≠ b) : (moveAssign s p b).ptr q = s.ptr q := by
  unfold moveAssign clear unref
  split
  · rfl
  · split
    · dsimp only
      rw [Refs.ptr_setPtr_of_ne _ _ hb, Refs.ptr_decr]
    · dsimp only
      rw [Refs.ptr_setPtr_of_ne _ _ hp, Refs.ptr_setPtr_of_ne _ _ hb, Refs.ptr_decr]

omit [DecidableEq β] in
theorem ptr_moveConstruct_of_ne {q : π} (hp : q ≠ p) (hb : q ≠ b) : (moveConstruct s p b).ptr q = s.ptr q := by
  unfold moveConstruct
  dsimp only
  rw [Refs.ptr_setPtr_of_ne _ _ hp, Refs.ptr_setPtr_of_ne _ _ hb, Refs.ptr_start_of_ne _ hp]

theorem ptr_destroy_of_ne {q : π} (hp : q ≠ p) : (destroy s p).ptr q = s.ptr q := by
  unfold destroy unref
  dsimp only
  rw [Refs.ptr_finish_of_ne _ hp, Refs.ptr_decr]

theorem ptr_create_of_ne {q : π} {mem : β} (hp : q ≠ p) : (create s p mem).ptr q = s.ptr q := by
  unfold create
  dsimp only
  rw [Refs.ptr_setPtr_of_ne _ _ hp, Refs.ptr_start_of_ne _ hp, Refs.ptr_alloc]

omit [DecidableEq β] in
/-- **A move** leaves the source null and gives the target what it had. -/
theorem ptr_moveConstruct (hne : p ≠ b) :
    (moveConstruct s p b).ptr p = s.ptr b ∧ (moveConstruct s p b).ptr b = none := by
  unfold moveConstruct
  dsimp only
  rw [Refs.ptr_setPtr_self, Refs.ptr_start_of_ne s hne.symm, Refs.ptr_setPtr_of_ne _ _ hne.symm, Refs.ptr_setPtr_self]
  exact ⟨rfl, rfl⟩

theorem ptr_moveAssign (hne : p ≠ b) : (moveAssign s p b).ptr p = s.ptr b ∧ (moveAssign s p b).ptr b = none := by
  unfold moveAssign clear unref
  rw [if_neg hne]
  split
  · rename_i he
    dsimp only
    rw [Refs.ptr_setPtr_of_ne _ _ hne, Refs.ptr_setPtr_self, Refs.ptr_decr]
    exact ⟨he, rfl⟩
  · dsimp only
    rw [Refs.ptr_setPtr_self, Refs.ptr_setPtr_of_ne _ _ hne.symm, Refs.ptr_setPtr_self, Refs.ptr_decr]
    exact ⟨rfl, rfl⟩

/-- **Replacing a block**: a handle gets a new one by way of a temporary `t`, which is gone afterwards. -/
theorem counted_replace {t : π} {mem : β} (h : s.Counted) (hp : p ∈ s.live) (ht : t ∉ s.live) (hm : mem ∉ s.allocated) :
    (destroy (moveAssign (create s t mem) p t) t).Counted := by
  have hc := counted_create h ht hm
  have hmem : t ∈ (create s t mem).live := Finset.mem_insert_self _ _
  refine counted_destroy (counted_moveAssign hc (Finset.mem_insert_of_mem hp) hmem) ?_
  rwa [live_moveAssign]

theorem live_replace {t : π} {mem : β} (ht : t ∉ s.live) : (destroy (moveAssign (create s t mem) p t) t).live = s.live := by
  rw [live_destroy, live_moveAssign]
  exact Finset.erase_insert ht

theorem allocated_replace {t : π} {mem : β} :
    (destroy (moveAssign (create s t mem) p t) t).allocated = insert mem s.allocated := by
  rw [allocated_destroy, allocated_moveAssign]
  rfl

theorem ptr_replace {t : π} {m : β} (hne : p ≠ t) :
    (destroy (moveAssign (create s t m) p t) t).ptr p = some m ∧
      ∀ q, q ≠ p → q ≠ t → (destroy (moveAssign (create s t m) p t) t).ptr q = s.ptr q := by
  refine ⟨?_, fun q hp ht => ?_⟩
  · rw [ptr_destroy_of_ne hne, (ptr_moveAssign hne).1]
    exact Refs.ptr_setPtr_self _ t _
  · rw [ptr_destroy_of_ne ht, ptr_moveAssign_of_ne hp ht, ptr_create_of_ne ht]

/-! ## Two handles at once -/

theorem Op.Legal.congr {live live' : ℕ → Prop} (h : op.Legal live i) (hl : ∀ k, live k ↔ live' k) : op.Legal live' i := by
  obtain rfl : live = live' := funext (fun k => propext (hl k))
  exact h

theorem Op.mem_liveAfter_of_ne {live : Finset π} {q : π} (hq : q ≠ p) : q ∈ op.liveAfter live p ↔ q ∈ live := by
  cases op with
  | construct => exact Finset.mem_insert.trans (or_iff_right hq)
  | copyConstruct b => exact Finset.mem_insert.trans (or_iff_right hq)
  | moveConstruct b => exact Finset.mem_insert.trans (or_iff_right hq)
  | copyAssign b => exact Iff.rfl
  | moveAssign b => exact Iff.rfl
  | clear => exact Iff.rfl
  | destroy => exact Finset.mem_erase.trans (and_iff_right hq)

theorem Op.mem_liveAfter_congr {live live' : Finset π} {q : π} (h : p ∈ live ↔ q ∈ live') :
    p ∈ op.liveAfter live p ↔ q ∈ op.liveAfter live' q := by
  cases op with
  | construct => exact iff_of_true (Finset.mem_insert_self _ _) (Finset.mem_insert_self _ _)
  | copyConstruct b => exact iff_of_true (Finset.mem_insert_self _ _) (Finset.mem_insert_self _ _)
  | moveConstruct b => exact iff_of_true (Finset.mem_insert_self _ _) (Finset.mem_insert_self _ _)
  | copyAssign b => exact h
  | moveAssign b => exact h
  | clear => exact h
  | destroy => exact iff_of_false (Finset.notMem_erase _ _) (Finset.notMem_erase _ _)

end Apply

end RcMem
end Fzx
