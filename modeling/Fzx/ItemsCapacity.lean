import Fzx.ItemsCounted
/-!
# ItemsCapacity — the capacity of the string array (util.hpp, items.cpp)

`roundPow2` is the least power of two that is not less than its argument, from 1 up to 2^63.  The two checks of `allocItem`
keep the sizes of every vector so small (`Items.InLimits`) that it is called in this range only.
-/
namespace Fzx

open Lib

/-- What the checks of `allocItem` leave room for. -/
def Items.InLimits (it : Items) : Prop := it.mStrsSize ≤ it.mItemsSize * 2 ^ 25 ∧ it.mItemsSize ≤ kItemOffsetMask.toNat

variable {it it' : Items} {mem mem' : Mem} {a : Alloc}

/-- **The least power of two.** -/
theorem roundPow2_least {n : BitVec 64} (h0 : 1 ≤ n.toNat) (h : n.toNat ≤ 2 ^ 63) :
    (∃ k, (roundPow2 n).toNat = 2 ^ k) ∧ n.toNat ≤ (roundPow2 n).toNat ∧
      ∀ k, n.toNat ≤ 2 ^ k → (roundPow2 n).toNat ≤ 2 ^ k := by
  rw [toNat_roundPow2 h0 h]
  refine ⟨⟨_, rfl⟩, ?_, fun k hk => Nat.pow_le_pow_right Nat.two_pos (Nat.size_le.2 ?_)⟩
  · have hlt := Nat.lt_size_self (n.toNat - 1)
    omega
  · have hpos := Nat.two_pow_pos k
    omega

/-- Half of it would have been too little. -/
theorem roundPow2_lt {n : BitVec 64} (h0 : 1 ≤ n.toNat) (h : n.toNat ≤ 2 ^ 63) : (roundPow2 n).toNat < 2 * n.toNat := by
  obtain ⟨⟨k, hk⟩, -, hleast⟩ := roundPow2_least h0 h
  rw [hk] at hleast ⊢
  by_contra hle
  cases k with
  | zero => omega
  | succ k =>
    rw [Nat.pow_succ] at hle hleast
    have hhalf := hleast k (by omega)
    have hpos := Nat.two_pow_pos k
    omega

/-! ## What growing chooses -/

theorem growStrs_cases {n : ℕ} (hg : it.growStrs mem a n = some (mem', it')) :
    (it'.mStrsSize = it.mStrsSize ∧ it'.mItemsSize = it.mItemsSize) ∧
      ((n ≤ it.mStrsCap ∧ it'.mStrsCap = it.mStrsCap) ∨
        (it.mStrsCap < n ∧ it'.mStrsCap = (roundPow2 (BitVec.ofNat 64 n)).toNat)) := by
  unfold Items.growStrs at hg
  split at hg
  · rename_i hlt
    obtain ⟨fill, -, hg⟩ := Option.map_eq_some_iff.1 hg
    cases hg
    exact ⟨⟨rfl, rfl⟩, .inr ⟨hlt, rfl⟩⟩
  · rename_i hle
    cases hg
    exact ⟨⟨rfl, rfl⟩, .inl ⟨Nat.le_of_not_lt hle, rfl⟩⟩

/-- The capacity has the size asked for, and is not twice as large if it is new. -/
theorem growStrs_sizes {n : ℕ} (h0 : 1 ≤ n) (h : n ≤ 2 ^ 63) (hg : it.growStrs mem a n = some (mem', it')) :
    (it'.mStrsCap = it.mStrsCap ∨ (n ≤ it'.mStrsCap ∧ it'.mStrsCap < 2 * n)) ∧ n ≤ it'.mStrsCap := by
  have hn : (BitVec.ofNat 64 n).toNat = n := Nat.mod_eq_of_lt (by omega)
  rcases (growStrs_cases hg).2 with ⟨hle, he⟩ | ⟨-, he⟩
  · exact ⟨.inl he, by rwa [he]⟩
  · have hle := (roundPow2_least (n := BitVec.ofNat 64 n) (by rwa [hn]) (by rwa [hn])).2.1
    have hlt := roundPow2_lt (n := BitVec.ofNat 64 n) (by rwa [hn]) (by rwa [hn])
    rw [hn] at hle hlt
    rw [he]
    exact ⟨.inr ⟨hle, hlt⟩, hle⟩

theorem growItems_sizes {n : ℕ} (hg : it.growItems mem a n = some (mem', it')) :
    (it'.mStrsSize = it.mStrsSize ∧ it'.mItemsSize = it.mItemsSize) ∧ it'.mStrsCap = it.mStrsCap := by
  unfold Items.growItems at hg
  split at hg
  · obtain ⟨fill, -, hg⟩ := Option.map_eq_some_iff.1 hg
    cases hg
    exact ⟨⟨rfl, rfl⟩, rfl⟩
  · cases hg
    exact ⟨⟨rfl, rfl⟩, rfl⟩

/-- The size asked for is in the range of `roundPow2`. -/
theorem Items.InLimits.strsSize_le (h : it.InLimits) {bytes : ℕ} (hbytes : bytes ≤ kItemSizeMask.toNat) :
    it.mStrsSize + roundUp 16 bytes ≤ (it.mItemsSize + 1) * 2 ^ 25 ∧ it.mStrsSize + roundUp 16 bytes ≤ 2 ^ 63 := by
  obtain ⟨hsize, hcount⟩ := h
  have hcount : it.mItemsSize ≤ 2 ^ 38 - 1 := hcount
  have hbytes : bytes ≤ 2 ^ 25 - 1 := hbytes
  have hr : roundUp 16 bytes ≤ 16 * 2 ^ 21 := roundUp_le (by omega)
  constructor
  · omega
  · omega

/-- **What `allocItem` does to the sizes**: they stay in the limits, and the capacity stays or is chosen for the size asked
for, which it has when nothing is thrown. -/
theorem allocItem_sizes (h : it.InLimits) (mem : Mem) (a : Alloc) {bytes : ℕ} (h0 : 0 < bytes) :
    (it.allocItem mem a bytes).2.2.InLimits ∧
      ((it.allocItem mem a bytes).2.2.mStrsCap = it.mStrsCap ∨
        (it.mStrsSize + roundUp 16 bytes ≤ (it.allocItem mem a bytes).2.2.mStrsCap ∧
          (it.allocItem mem a bytes).2.2.mStrsCap < 2 * (it.mStrsSize + roundUp 16 bytes))) ∧
      ∀ ptr, (it.allocItem mem a bytes).1 = .ok ptr →
        it.mStrsSize + roundUp 16 bytes ≤ (it.allocItem mem a bytes).2.2.mStrsCap := by
  unfold Items.allocItem
  by_cases hbytes : bytes > kItemSizeMask.toNat
  · rw [if_pos hbytes]
    exact ⟨h, .inl rfl, fun _ => nofun⟩
  rw [if_neg hbytes]
  by_cases hcount : it.mItemsSize + 1 > kItemOffsetMask.toNat
  · dsimp only
    rw [if_pos hcount]
    exact ⟨h, .inl rfl, fun _ => nofun⟩
  dsimp only
  rw [if_neg hcount]
  obtain ⟨hmul, hle⟩ := h.strsSize_le (Nat.le_of_not_lt hbytes)
  have hpos : 1 ≤ it.mStrsSize + roundUp 16 bytes := Nat.le_add_left_of_le (roundUp_pos h0)
  generalize it.mStrsSize + roundUp 16 bytes = n at hmul hle hpos ⊢
  cases hs : it.growStrs mem a n with
  | none => exact ⟨h, .inl rfl, fun _ => nofun⟩
  | some r =>
    obtain ⟨mem₁, it₁⟩ := r
    obtain ⟨hs₁, hi₁⟩ := (growStrs_cases hs).1
    obtain ⟨hcap, hroom⟩ := growStrs_sizes hpos hle hs
    have h₁ : it₁.InLimits := by
      rw [Items.InLimits, hs₁, hi₁]
      exact h
    dsimp only
    cases hi : it₁.growItems mem₁ a (it.mItemsSize + 1) with
    | none => exact ⟨h₁, hcap, fun _ => nofun⟩
    | some r =>
      obtain ⟨mem₂, it₂⟩ := r
      obtain ⟨-, hcap₂⟩ := growItems_sizes hi
      dsimp only
      rw [hcap₂]
      exact ⟨⟨hmul, Nat.le_of_not_lt hcount⟩, hcap, fun _ _ => hroom⟩

theorem push_inLimits (h : it.InLimits) (mem : Mem) (a : Alloc) (s : Bytes) : (it.push mem a s).2.2.InLimits := by
  unfold Items.push
  split
  · exact h
  · rename_i hs
    have hne : s ≠ [] := by simpa using hs
    have hall := (allocItem_sizes h mem a (List.length_pos_iff.2 hne)).1
    generalize it.allocItem mem a s.length = r at hall ⊢
    obtain ⟨r, mem₁, it₁⟩ := r
    cases r with
    | error e => exact hall
    | ok ptr =>
      dsimp only
      split
      · exact hall
      · exact hall

/-! ## Every vector of a run -/

namespace Counts

open World

variable {w w' : World} {j : ℕ}

theorem sizes_growStrs {n : ℕ} (hg : w.growStrs j a n = some w') {k : ℕ} (hk : k ≠ j) : w'.sizes k = w.sizes k := by
  unfold growStrs at hg
  split at hg
  · obtain ⟨fill, -, hg⟩ := Option.map_eq_some_iff.1 hg
    cases hg
    exact Function.update_of_ne hk _ _
  · cases hg
    rfl

theorem sizes_growItems {n : ℕ} (hg : w.growItems j a n = some w') {k : ℕ} (hk : k ≠ j) : w'.sizes k = w.sizes k := by
  unfold growItems at hg
  split at hg
  · obtain ⟨fill, -, hg⟩ := Option.map_eq_some_iff.1 hg
    cases hg
    exact Function.update_of_ne hk _ _
  · cases hg
    rfl

theorem sizes_allocItem (w : World) (a : Alloc) (bytes : ℕ) {k : ℕ} (hk : k ≠ j) :
    (w.allocItem j a bytes).2.sizes k = w.sizes k := by
  unfold allocItem
  split
  · rfl
  · dsimp only
    split
    · rfl
    · cases hs : w.growStrs j a ((w.sizes j).mStrsSize + roundUp 16 bytes) with
      | none => rfl
      | some w₁ =>
        have hk₁ := sizes_growStrs hs hk
        dsimp only
        cases hi : w₁.growItems j a ((w.sizes j).mItemsSize + 1) with
        | none => exact hk₁
        | some w₂ => exact (Function.update_of_ne hk _ _).trans ((sizes_growItems hi hk).trans hk₁)

/-- **A push changes no other vector's sizes.** -/
theorem sizes_push (w : World) (a : Alloc) (s : Bytes) {k : ℕ} (hk : k ≠ j) :
    (w.push j a s).2.sizes k = w.sizes k := by
  unfold World.push
  split
  · rfl
  · have hall := sizes_allocItem w a s.length hk
    generalize w.allocItem j a s.length = r at hall ⊢
    obtain ⟨r, w₁⟩ := r
    cases r with
    | error e => exact hall
    | ok ptr =>
      dsimp only
      split
      · exact (Function.update_of_ne hk _ _).trans hall
      · exact hall

/-- The other operations hand sizes on or set them to 0. -/
theorem sizes_apply (w : World) (j : ℕ) (op : RcMem.Op) (k : ℕ) :
    (w.apply j op).sizes k = {} ∨ ∃ l, (w.apply j op).sizes k = w.sizes l := by
  have hupdate : ∀ (f : ℕ → Sizes) (z : Sizes), Function.update f j z k = z ∨ Function.update f j z k = f k := by
    intro f z
    by_cases hk : k = j
    · rw [hk]
      exact .inl (Function.update_self _ _ _)
    · exact .inr (Function.update_of_ne hk _ _)
  have hmoved : ∀ b, Function.update (Function.update w.sizes b {}) j (w.sizes b) k = {} ∨
      ∃ l, Function.update (Function.update w.sizes b {}) j (w.sizes b) k = w.sizes l := by
    intro b
    rcases hupdate (Function.update w.sizes b {}) (w.sizes b) with h | h
    · exact .inr ⟨b, h⟩
    · rw [h]
      by_cases hk : k = b
      · rw [hk]
        exact .inl (Function.update_self _ _ _)
      · exact .inr ⟨k, Function.update_of_ne hk _ _⟩
  cases op with
  | construct => exact (hupdate w.sizes {}).imp id (fun h => ⟨k, h⟩)
  | copyConstruct b => exact .inr ((hupdate w.sizes (w.sizes b)).elim (fun h => ⟨b, h⟩) (fun h => ⟨k, h⟩))
  | moveConstruct b => exact hmoved b
  | copyAssign b => exact .inr ((hupdate w.sizes (w.sizes b)).elim (fun h => ⟨b, h⟩) (fun h => ⟨k, h⟩))
  | moveAssign b =>
    change (w.moveAssign j b).sizes k = {} ∨ ∃ l, (w.moveAssign j b).sizes k = w.sizes l
    unfold moveAssign
    split
    · exact .inr ⟨k, rfl⟩
    · exact hmoved b
  | clear => exact (hupdate w.sizes {}).imp id (fun h => ⟨k, h⟩)
  | destroy => exact .inr ⟨k, rfl⟩

theorem inLimits_of_sizes {k l : ℕ} (h : (w.get l).InLimits) (hs : w'.sizes k = w.sizes l) : (w'.get k).InLimits := by
  rw [Items.InLimits, get_mStrsSize, get_mItemsSize, hs]
  exact h

theorem inLimits_of_zero {k : ℕ} (hs : w'.sizes k = {}) : (w'.get k).InLimits := by
  rw [Items.InLimits, get_mStrsSize, get_mItemsSize, hs]
  exact ⟨Nat.zero_le _, Nat.zero_le _⟩

theorem inLimits_step {a : Action} (h : ∀ k, (w.get k).InLimits) (hs : step w a = some w') (k : ℕ) : (w'.get k).InLimits := by
  unfold step at hs
  split at hs
  · cases hs
    cases a with
    | create i => exact h k
    | handle i op => exact h k
    | items j op =>
      rcases sizes_apply w j op k with hz | ⟨l, hl⟩
      · exact inLimits_of_zero hz
      · exact inLimits_of_sizes (h l) hl
    | push j a s =>
      by_cases hk : k = j
      · subst hk
        have heq := congrArg (fun r => r.2.2) (push_eq w k a s)
        rw [perform, show (w.push k a s).2.get k = _ from heq]
        exact push_inLimits (h k) w.mem a s
      · exact inLimits_of_sizes (h k) (sizes_push w a s hk)
  · cases hs

theorem inLimits_run {actions : List Action} (hrun : run step (World.init mem) actions = some w) (k : ℕ) :
    (w.get k).InLimits :=
  run_inv (fun w => ∀ k, (w.get k).InLimits) (fun _ _ _ h hs => inLimits_step h hs) actions _ w
    (fun _ => inLimits_of_zero rfl) hrun k

/-- **`roundPow2` rounds up to the next power of two**, from 1 up to 2^63, and so the string capacity that `allocItem`
chooses, in any vector after any operations, is at least the size asked for and less than twice that size. -/
theorem roundPow2_capacity :
    (∀ n : BitVec 64, 1 ≤ n.toNat → n.toNat ≤ 2 ^ 63 → (∃ k, (roundPow2 n).toNat = 2 ^ k) ∧
      n.toNat ≤ (roundPow2 n).toNat ∧ ∀ k, n.toNat ≤ 2 ^ k → (roundPow2 n).toNat ≤ 2 ^ k) ∧
    ∀ (mem : Mem) (actions : List Action) (w : World), run step (World.init mem) actions = some w →
      ∀ (j : ℕ) (a : Alloc) (bytes : ℕ), 0 < bytes →
        (((w.get j).allocItem w.mem a bytes).2.2.mStrsCap ≠ (w.get j).mStrsCap →
          (w.get j).mStrsSize + roundUp 16 bytes ≤ ((w.get j).allocItem w.mem a bytes).2.2.mStrsCap ∧
            ((w.get j).allocItem w.mem a bytes).2.2.mStrsCap < 2 * ((w.get j).mStrsSize + roundUp 16 bytes)) ∧
        ∀ ptr, ((w.get j).allocItem w.mem a bytes).1 = .ok ptr →
          (w.get j).mStrsSize + roundUp 16 bytes ≤ ((w.get j).allocItem w.mem a bytes).2.2.mStrsCap := by
  refine ⟨fun n h0 hn => roundPow2_least h0 hn, fun mem actions w hrun j a bytes hbytes => ?_⟩
  obtain ⟨-, hcap, hok⟩ := allocItem_sizes (inLimits_run hrun j) w.mem a hbytes
  exact ⟨fun hne => hcap.resolve_left hne, hok⟩

/-- 33 is rounded up to no more than 64, and so is what two strings of 20 bytes take. -/
theorem roundPow2_capacity_two : (33 ≤ (roundPow2 33#64).toNat ∧ (roundPow2 33#64).toNat ≤ 2 ^ 6) ∧
    ∃ w, run step (World.init .empty) [.items 0 .construct,
        .push 0 ⟨some (fun _ => 7), some (fun _ => 9)⟩ (List.replicate 20 65)] = some w ∧
      64 ≤ ((w.get 0).allocItem w.mem ⟨some (fun _ => 7), some (fun _ => 9)⟩ 20).2.2.mStrsCap ∧
      ((w.get 0).allocItem w.mem ⟨some (fun _ => 7), some (fun _ => 9)⟩ 20).2.2.mStrsCap < 128 := by
  obtain ⟨-, hle, hleast⟩ := roundPow2_capacity.1 33#64 (by decide) (by decide)
  have hcap := roundPow2_capacity.2 .empty
    [.items 0 .construct, .push 0 ⟨some (fun _ => 7), some (fun _ => 9)⟩ (List.replicate 20 65)] _ rfl 0
    ⟨some (fun _ => 7), some (fun _ => 9)⟩ 20 (by decide)
  exact ⟨⟨hle, hleast 6 (by decide)⟩, _, rfl, hcap.1 (by decide +kernel)⟩

end Counts
end Fzx
