import Fzx.Items
import Fzx.Lib.Run
/-!
# ItemsCopies — instances that share their storage (items.hpp, `Fzx::commit`)

Any number of instances, empty at first.  Each may become a copy of another one at any time, and the two then share their
arrays.  The source asks that only the most up-to-date instance pushes: one that holds every string pushed so far
(`UpToDate`).  `values` is what the instances hold as values of their own; no step of the code reads it or `history`.
-/
namespace Fzx

open Lib

structure Copies where
  mem : Mem
  instances : ℕ → Items
  values : ℕ → List Bytes
  history : List Bytes

namespace Copies

/-- The memory may hold anything before. -/
def init (mem : Mem) : Copies := { mem, instances := fun _ => {}, values := fun _ => [], history := [] }

inductive Action where
  | push (i : ℕ) (a : Alloc) (s : Bytes)
  | copy (src dst : ℕ)

def push (w : Copies) (i : ℕ) (a : Alloc) (s : Bytes) : Copies :=
  let r := (w.instances i).push w.mem a s
  { mem := r.2.1
    instances := Function.update w.instances i r.2.2
    values := Function.update w.values i (pushed (w.values i) s r.1)
    history := pushed w.history s r.1 }

def step (w : Copies) : Action → Option Copies
  | .push i a s => some (w.push i a s)
  | .copy src dst =>
    some { w with instances := Function.update w.instances dst (w.instances src)
                  values := Function.update w.values dst (w.values src) }

/-- Only an instance with every string pushes. -/
def UpToDate (w : Copies) : Action → Prop
  | .push i _ _ => w.values i = w.history
  | .copy _ _ => True

instance (w : Copies) : ∀ a, Decidable (UpToDate w a)
  | .push i _ _ => inferInstanceAs (Decidable (w.values i = w.history))
  | .copy _ _ => .isTrue trivial

/-! ## The invariant -/

structure Inv (w : Copies) : Prop where
  holds : ∀ c, Holds w.mem (w.instances c) (w.values c)
  isPrefix : ∀ c, w.values c <+: w.history

theorem inv_init (mem : Mem) : Inv (init mem) := ⟨fun _ => holds_nil mem, fun _ => List.prefix_refl []⟩

theorem prefix_pushed (v : List Bytes) (s : Bytes) (r : Except Exn Unit) : v <+: pushed v s r := by
  cases r with
  | error e => exact List.prefix_refl v
  | ok u =>
    rw [pushed]
    split
    · exact List.prefix_refl v
    · exact List.prefix_append v [s]

/-- One instance changes, and the memory behind the others only where they do not see it. -/
theorem inv_update {mem : Mem} {instances : ℕ → Items} {values : ℕ → List Bytes} {history : List Bytes} {i : ℕ}
    {it : Items} {v : List Bytes} (hi : Holds mem it v ∧ v <+: history)
    (hc : ∀ c, c ≠ i → Holds mem (instances c) (values c) ∧ values c <+: history) :
    Inv { mem, instances := Function.update instances i it, values := Function.update values i v, history } := by
  have hall : ∀ c, Holds mem (Function.update instances i it c) (Function.update values i v c) ∧
      Function.update values i v c <+: history := by
    intro c
    by_cases hci : c = i
    · rw [hci, Function.update_self, Function.update_self]
      exact hi
    · rw [Function.update_of_ne hci, Function.update_of_ne hci]
      exact hc c hci
  exact ⟨fun c => (hall c).1, fun c => (hall c).2⟩

/-- **A push by an up-to-date instance** is seen by no other one. -/
theorem inv_push {w : Copies} (h : Inv w) {i : ℕ} (hi : w.values i = w.history) (a : Alloc) (s : Bytes) :
    Inv (w.push i a s) := by
  have hholds := h.holds i
  rw [hi] at hholds
  obtain ⟨hnew, hk⟩ := push_spec hholds (r := ((w.instances i).push w.mem a s).1) rfl
  rw [push, hi]
  exact inv_update ⟨hnew, List.prefix_refl _⟩
    (fun c _ => ⟨(h.holds c).keeps hk (h.isPrefix c), (h.isPrefix c).trans (prefix_pushed _ _ _)⟩)

/-- **Every step keeps the invariant.** -/
theorem inv_step {w w' : Copies} {a : Action} (h : Inv w) (hup : UpToDate w a) (hs : step w a = some w') : Inv w' := by
  cases a with
  | push i a s =>
    cases hs
    exact inv_push h hup a s
  | copy src dst =>
    cases hs
    exact inv_update ⟨h.holds src, h.isPrefix src⟩ (fun c _ => ⟨h.holds c, h.isPrefix c⟩)

theorem inv_run {mem : Mem} {actions : List Action} (hup : Meets step UpToDate (init mem) actions) {w : Copies}
    (hrun : run step (init mem) actions = some w) : Inv w :=
  run_inv_meets Inv (fun _ _ _ hi hq hs => inv_step hi hq hs) actions _ w hup (inv_init mem) hrun

/-- While the strings take less than 2^38 bytes, every offset fits its bits. -/
theorem Inv.offset_lt {w : Copies} (h : Inv w) (htotal : (store w.history).length < 2 ^ 38) {c i : ℕ}
    (hi : i < (w.values c).length) : offset (w.values c) i < 2 ^ 38 := by
  have hmono := offset_mono (w.values c) (Nat.le_of_lt hi)
  have hle := length_store_of_prefix (h.isPrefix c)
  rw [offset_length] at hmono
  omega

/-- The number of the items is no limit before that. -/
theorem Inv.count_lt {w : Copies} (h : Inv w) (htotal : (store w.history).length < 2 ^ 38) (c : ℕ) :
    (w.instances c).mItemsSize + 1 ≤ kItemOffsetMask.toNat := by
  have hle := length_store_of_prefix (h.isPrefix c)
  have hcount := le_length_store (h.holds c).fits
  have hmask : kItemOffsetMask.toNat = 2 ^ 38 - 1 := rfl
  rw [(h.holds c).itemsSize, hmask]
  omega

/-- **Copies are values**: after any pushes and copies, every instance holds the strings that were pushed to it or to the
instance it is a copy of, byte for byte, and these are the first ones of all strings pushed.  With memory available it
takes every string that is not too big. -/
theorem copies_are_values (mem : Mem) (actions : List Action) (hup : Meets step UpToDate (init mem) actions)
    (w : Copies) (hrun : run step (init mem) actions = some w) (htotal : (store w.history).length < 2 ^ 38) (c : ℕ) :
    w.values c <+: w.history ∧ (w.instances c).size = (w.values c).length ∧
      (∀ i, ∀ hi : i < (w.values c).length, (w.instances c).at w.mem i = (w.values c)[i]) ∧
      ∀ (a : Alloc) (s : Bytes), a.strs.isSome = true ∧ a.items.isSome = true → s.length ≤ kItemSizeMask.toNat →
        ((w.instances c).push w.mem a s).1 = .ok () := by
  have h := inv_run hup hrun
  refine ⟨h.isPrefix c, (h.holds c).itemsSize, fun i hi => (h.holds c).at_eq hi (h.offset_lt htotal hi), fun a s ha hs => ?_⟩
  obtain ⟨mem', it', hp⟩ := push_ok ha hs (h.count_lt htotal c)
  rw [hp]

/-- Two copies are taken, and the second one goes on: the first one keeps the one string it had. -/
theorem copies_are_values_ab : ∃ w, run step (init .empty)
      [.push 0 ⟨some (fun _ => 7), some (fun _ => 9)⟩ [97, 98], .copy 0 1, .copy 1 2,
        .push 2 ⟨some (fun _ => 7), some (fun _ => 9)⟩ [99]] = some w ∧
    w.history = [[97, 98], [99]] ∧ (w.instances 1).size = 1 ∧ (w.instances 1).at w.mem 0 = [97, 98] ∧
    (w.instances 2).at w.mem 1 = [99] := by
  have hk := copies_are_values Mem.empty
    [.push 0 ⟨some (fun _ => 7), some (fun _ => 9)⟩ [97, 98], .copy 0 1, .copy 1 2,
      .push 2 ⟨some (fun _ => 7), some (fun _ => 9)⟩ [99]] (by decide +kernel) _ rfl (by decide +kernel)
  exact ⟨_, rfl, rfl, (hk 1).2.1, (hk 1).2.2.1 0 (by decide +kernel), (hk 2).2.2.1 1 (by decide +kernel)⟩

end Copies
end Fzx
