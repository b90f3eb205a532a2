import Fzx.RcMem
import Fzx.ItemsCopies
/-!
# ItemsCounted — handles and item vectors over counted memory (rc_mem.hpp, items.cpp)

Any number of handles of their own and any number of item vectors, each of them two handles and its sizes, made, copied,
moved, cleared and destroyed in any order.  A vector may push at any time, also one that is not up to date: the counts do
not depend on what is in the blocks.
-/
namespace Fzx

open Lib

namespace Counts

/-- Where a handle lives: on its own, as `mStrs` or `mItems` of a vector, or as the local `mem` of `allocItem`. -/
inductive Place where
  | handle (i : ℕ)
  | strs (j : ℕ)
  | items (j : ℕ)
  | mem
deriving DecidableEq

/-- A block: of a handle of its own, of strings or of entries. -/
inductive Block where
  | raw (n : ℕ)
  | strs (n : ℕ)
  | items (n : ℕ)
deriving DecidableEq

def Block.num : Block → ℕ
  | .raw n => n
  | .strs n => n
  | .items n => n

/-- What a vector has besides its handles. -/
structure Sizes where
  mStrsSize : ℕ := 0
  mItemsSize : ℕ := 0
  mStrsCap : ℕ := 0
  mItemsCap : ℕ := 0
  mMaxStrSize : ℕ := 0

structure World where
  mem : Mem
  nextRaw : ℕ
  rc : Refs Place Block
  sizes : ℕ → Sizes

namespace World

/-- The memory may hold anything before. -/
def init (mem : Mem) : World := { mem, nextRaw := 0, rc := Refs.empty, sizes := fun _ => {} }

/-- Vector `j` as a value. -/
def get (w : World) (j : ℕ) : Items :=
  { mStrs := (w.rc.ptr (.strs j)).map Block.num
    mItems := (w.rc.ptr (.items j)).map Block.num
    mStrsSize := (w.sizes j).mStrsSize
    mItemsSize := (w.sizes j).mItemsSize
    mStrsCap := (w.sizes j).mStrsCap
    mItemsCap := (w.sizes j).mItemsCap
    mMaxStrSize := (w.sizes j).mMaxStrSize }

/-! ## The special members of Items -/

/-- `Items() = default`. -/
def construct (w : World) (j : ℕ) : World :=
  let rc := RcMem.construct w.rc (.strs j)
  let rc := RcMem.construct rc (.items j)
  { w with rc, sizes := Function.update w.sizes j {} }

/-- `Items(const Items&) = default`. -/
def copyConstruct (w : World) (j b : ℕ) : World :=
  let rc := RcMem.copyConstruct w.rc (.strs j) (.strs b)
  let rc := RcMem.copyConstruct rc (.items j) (.items b)
  { w with rc, sizes := Function.update w.sizes j (w.sizes b) }

/-- `operator=(const Items&) = default`. -/
def copyAssign (w : World) (j b : ℕ) : World :=
  let rc := RcMem.copyAssign w.rc (.strs j) (.strs b)
  let rc := RcMem.copyAssign rc (.items j) (.items b)
  { w with rc, sizes := Function.update w.sizes j (w.sizes b) }

/-- Each size is exchanged with 0. -/
def moveConstruct (w : World) (j b : ℕ) : World :=
  let rc := RcMem.moveConstruct w.rc (.strs j) (.strs b)
  let rc := RcMem.moveConstruct rc (.items j) (.items b)
  { w with rc, sizes := Function.update (Function.update w.sizes b {}) j (w.sizes b) }

def moveAssign (w : World) (j b : ℕ) : World :=
  if j = b then w
  else
    let rc := RcMem.moveAssign w.rc (.strs j) (.strs b)
    let rc := RcMem.moveAssign rc (.items j) (.items b)
    { w with rc, sizes := Function.update (Function.update w.sizes b {}) j (w.sizes b) }

def clear (w : World) (j : ℕ) : World :=
  let rc := RcMem.clear w.rc (.strs j)
  let rc := RcMem.clear rc (.items j)
  { w with rc, sizes := Function.update w.sizes j {} }

/-- `~Items() = default`: the members go in reverse order. -/
def destroy (w : World) (j : ℕ) : World :=
  let rc := RcMem.destroy w.rc (.items j)
  let rc := RcMem.destroy rc (.strs j)
  { w with rc }

def apply (w : World) (j : ℕ) : RcMem.Op → World
  | .construct => w.construct j
  | .copyConstruct b => w.copyConstruct j b
  | .moveConstruct b => w.moveConstruct j b
  | .copyAssign b => w.copyAssign j b
  | .moveAssign b => w.moveAssign j b
  | .clear => w.clear j
  | .destroy => w.destroy j

/-! ## push -/

/-- The string array is replaced: `mem` is created, moved to `mStrs` and destroyed. -/
def growStrs (w : World) (j : ℕ) (a : Alloc) (strsSize : ℕ) : Option World :=
  if strsSize > (w.sizes j).mStrsCap then
    let cap := (roundPow2 (BitVec.ofNat 64 strsSize)).toNat
    a.strs.map (fun fill =>
      let rc := RcMem.create w.rc .mem (.strs w.mem.strs.next)
      let strs := w.mem.strs.grow (roundUp kCacheLine (cap + kOveralloc)) fill (w.get j).mStrs (w.sizes j).mStrsSize
      let rc := RcMem.moveAssign rc (.strs j) .mem
      let rc := RcMem.destroy rc .mem
      { w with mem := { w.mem with strs }, rc
               sizes := Function.update w.sizes j { w.sizes j with mStrsCap := cap } })
  else some w

def growItems (w : World) (j : ℕ) (a : Alloc) (itemsSize : ℕ) : Option World :=
  if itemsSize > (w.sizes j).mItemsCap then
    let cap := if (w.sizes j).mItemsCap = 0 then 512 else (w.sizes j).mItemsCap * 2
    a.items.map (fun fill =>
      let rc := RcMem.create w.rc .mem (.items w.mem.items.next)
      let items := w.mem.items.grow (roundUp kCacheLine (cap * 8) / 8) fill (w.get j).mItems (w.sizes j).mItemsSize
      let rc := RcMem.moveAssign rc (.items j) .mem
      let rc := RcMem.destroy rc .mem
      { w with mem := { w.mem with items }, rc
               sizes := Function.update w.sizes j { w.sizes j with mItemsCap := cap } })
  else some w

def allocItem (w : World) (j : ℕ) (a : Alloc) (bytes : ℕ) : Except Exn ℕ × World :=
  if bytes > kItemSizeMask.toNat then (.error (.lengthError "item is too big"), w)
  else
    let itemsSize := (w.sizes j).mItemsSize + 1
    if itemsSize > kItemOffsetMask.toNat then (.error (.lengthError "max item count reached"), w)
    else
      let strsSize := (w.sizes j).mStrsSize + roundUp 16 bytes
      match w.growStrs j a strsSize with
      | none => (.error .badAlloc, w)
      | some w =>
        match w.growItems j a itemsSize with
        | none => (.error .badAlloc, w)
        | some w =>
          let entry := pack (w.sizes j).mStrsSize bytes
          (.ok (w.sizes j).mStrsSize,
            { w with mem := { w.mem with items := w.mem.items.write (w.get j).mItems (w.sizes j).mItemsSize [entry] }
                     sizes := Function.update w.sizes j
                      { w.sizes j with mStrsSize := strsSize, mItemsSize := itemsSize } })

def push (w : World) (j : ℕ) (a : Alloc) (s : Bytes) : Except Exn Unit × World :=
  if s.isEmpty then (.ok (), w)
  else
    match w.allocItem j a s.length with
    | (.error e, w) => (.error e, w)
    | (.ok ptr, w) =>
      let strs := w.mem.strs.write (w.get j).mStrs ptr (List.replicate (roundUp 16 s.length) 0)
      let strs := strs.write (w.get j).mStrs ptr s
      (.ok (), { w with mem := { w.mem with strs }
                        sizes := if s.length > (w.sizes j).mMaxStrSize then
                            Function.update w.sizes j { w.sizes j with mMaxStrSize := s.length }
                          else w.sizes })

end World

open World

/-! ## Runs -/

/-- What is done next; `create` is a call of `RcMem::create` that finds memory, and one that does not changes nothing. -/
inductive Action where
  | create (i : ℕ)
  | handle (i : ℕ) (op : RcMem.Op)
  | items (j : ℕ) (op : RcMem.Op)
  | push (j : ℕ) (a : Alloc) (s : Bytes)

def Legal (w : World) : Action → Prop
  | .create i => .handle i ∉ w.rc.live
  | .handle i op => op.Legal (fun k => .handle k ∈ w.rc.live) i
  | .items j op => op.Legal (fun k => .strs k ∈ w.rc.live) j
  | .push j _ _ => .strs j ∈ w.rc.live

instance (w : World) : ∀ a, Decidable (Legal w a)
  | .create i => inferInstanceAs (Decidable (Place.handle i ∉ w.rc.live))
  | .handle i op => inferInstanceAs (Decidable (op.Legal (fun k => Place.handle k ∈ w.rc.live) i))
  | .items j op => inferInstanceAs (Decidable (op.Legal (fun k => Place.strs k ∈ w.rc.live) j))
  | .push j _ _ => inferInstanceAs (Decidable (Place.strs j ∈ w.rc.live))

def perform (w : World) : Action → World
  | .create i => { w with rc := RcMem.create w.rc (.handle i) (.raw w.nextRaw), nextRaw := w.nextRaw + 1 }
  | .handle i op => { w with rc := RcMem.apply w.rc .handle i op }
  | .items j op => w.apply j op
  | .push j a s => (w.push j a s).2

def step (w : World) (a : Action) : Option World := if Legal w a then some (perform w a) else none

/-! ## The invariant -/

/-- The block was handed out. -/
def World.Known (w : World) : Block → Prop
  | .raw n => n < w.nextRaw
  | .strs n => n < w.mem.strs.next
  | .items n => n < w.mem.items.next

structure Inv (w : World) : Prop where
  counted : w.rc.Counted
  both : ∀ j, Place.strs j ∈ w.rc.live ↔ Place.items j ∈ w.rc.live
  noMem : Place.mem ∉ w.rc.live
  known : ∀ b ∈ w.rc.allocated, w.Known b

theorem inv_init (mem : Mem) : Inv (World.init mem) where
  counted := Refs.counted_empty
  both := fun _ => iff_of_false (Finset.notMem_empty _) (Finset.notMem_empty _)
  noMem := Finset.notMem_empty _
  known := fun _ hb => absurd hb (Finset.notMem_empty _)

variable {w w' : World} {j : ℕ} {op : RcMem.Op}

/-- Newer blocks do not make older ones unknown. -/
theorem World.Known.mono {b : Block} (h : w.Known b) (hr : w.nextRaw ≤ w'.nextRaw) (hs : w.mem.strs.next ≤ w'.mem.strs.next)
    (hi : w.mem.items.next ≤ w'.mem.items.next) : w'.Known b := by
  cases b with
  | raw n => exact Nat.lt_of_lt_of_le h hr
  | strs n => exact Nat.lt_of_lt_of_le h hs
  | items n => exact Nat.lt_of_lt_of_le h hi

/-! ### The special members -/

theorem mem_apply (w : World) (j : ℕ) (op : RcMem.Op) :
    (w.apply j op).mem = w.mem ∧ (w.apply j op).nextRaw = w.nextRaw := by
  cases op with
  | moveAssign b =>
    change (w.moveAssign j b).mem = _ ∧ (w.moveAssign j b).nextRaw = _
    unfold moveAssign
    split <;> exact ⟨rfl, rfl⟩
  | _ => exact ⟨rfl, rfl⟩

/-- **A special member of Items** is that of one of its handles and then that of the other one. -/
theorem rc_apply (w : World) (j : ℕ) (op : RcMem.Op) :
    (w.apply j op).rc = RcMem.apply (RcMem.apply w.rc .strs j op) .items j op ∨
      (w.apply j op).rc = RcMem.apply (RcMem.apply w.rc .items j op) .strs j op := by
  cases op with
  | moveAssign b =>
    left
    change (w.moveAssign j b).rc = RcMem.moveAssign (RcMem.moveAssign w.rc (.strs j) (.strs b)) (.items j) (.items b)
    unfold moveAssign
    split
    · rename_i he
      subst he
      rw [RcMem.moveAssign, if_pos rfl, RcMem.moveAssign, if_pos rfl]
    · rfl
  | destroy => exact .inr rfl
  | _ => exact .inl rfl

/-- Two handles of each vector, `f j` and `g j`, that live together. -/
theorem inv_both {f g : ℕ → Place} (hf : f.Injective) (hg : g.Injective) (hfg : ∀ k l, f k ≠ g l) {rc : Refs Place Block}
    (h : rc.Counted) (hboth : ∀ k, f k ∈ rc.live ↔ g k ∈ rc.live) (hl : op.Legal (fun k => f k ∈ rc.live) j) :
    (RcMem.apply (RcMem.apply rc f j op) g j op).Counted ∧
      (∀ k, f k ∈ (RcMem.apply (RcMem.apply rc f j op) g j op).live ↔
        g k ∈ (RcMem.apply (RcMem.apply rc f j op) g j op).live) ∧
      ∀ q, q ≠ f j → q ≠ g j → (q ∈ (RcMem.apply (RcMem.apply rc f j op) g j op).live ↔ q ∈ rc.live) := by
  have hlive : (RcMem.apply (RcMem.apply rc f j op) g j op).live = op.liveAfter (op.liveAfter rc.live (f j)) (g j) := by
    rw [RcMem.live_apply, RcMem.live_apply]
  have hother : ∀ q, q ≠ f j → (q ∈ (RcMem.apply rc f j op).live ↔ q ∈ rc.live) := fun q hq => by
    rw [RcMem.live_apply, RcMem.Op.mem_liveAfter_of_ne hq]
  refine ⟨RcMem.counted_apply (RcMem.counted_apply h hl) (hl.congr (fun k => ?_)), fun k => ?_, fun q hqf hqg => ?_⟩
  · rw [hboth k, hother (g k) (hfg j k).symm]
  · rw [hlive, RcMem.Op.mem_liveAfter_of_ne (hfg k j)]
    by_cases hk : k = j
    · subst hk
      exact RcMem.Op.mem_liveAfter_congr (by rw [RcMem.Op.mem_liveAfter_of_ne (hfg k k).symm, hboth k])
    · rw [RcMem.Op.mem_liveAfter_of_ne (fun he => hk (hf he)), RcMem.Op.mem_liveAfter_of_ne (fun he => hk (hg he)),
        RcMem.Op.mem_liveAfter_of_ne (hfg j k).symm, hboth k]
  · rw [hlive, RcMem.Op.mem_liveAfter_of_ne hqg, RcMem.Op.mem_liveAfter_of_ne hqf]

theorem allocated_apply (w : World) (j : ℕ) (op : RcMem.Op) : (w.apply j op).rc.allocated = w.rc.allocated := by
  rcases rc_apply w j op with hrc | hrc <;> rw [hrc, RcMem.allocated_apply, RcMem.allocated_apply]

theorem inv_apply (h : Inv w) (hl : op.Legal (fun k => Place.strs k ∈ w.rc.live) j) : Inv (w.apply j op) := by
  have hstrs : Place.strs.Injective := fun _ _ => Place.strs.inj
  have hitems : Place.items.Injective := fun _ _ => Place.items.inj
  obtain ⟨hmem, hraw⟩ := mem_apply w j op
  have hknown : ∀ b ∈ (w.apply j op).rc.allocated, (w.apply j op).Known b := fun b hb => by
    rw [allocated_apply] at hb
    exact (h.known b hb).mono (Nat.le_of_eq hraw.symm) (by rw [hmem]) (by rw [hmem])
  rcases rc_apply w j op with hrc | hrc
  · obtain ⟨hc, hb, ho⟩ := inv_both hstrs hitems (fun _ _ => nofun) h.counted h.both hl
    refine ⟨by rwa [hrc], by rwa [hrc], ?_, hknown⟩
    rw [hrc, ho .mem nofun nofun]
    exact h.noMem
  · obtain ⟨hc, hb, ho⟩ := inv_both hitems hstrs (fun _ _ => nofun) h.counted (fun k => (h.both k).symm)
      (hl.congr h.both)
    refine ⟨by rwa [hrc], fun k => ?_, ?_, hknown⟩
    · rw [hrc]
      exact (hb k).symm
    · rw [hrc, ho .mem nofun nofun]
      exact h.noMem

/-! ### push -/

/-- A block that was not handed out is not allocated. -/
theorem Inv.strs_next (h : Inv w) : Block.strs w.mem.strs.next ∉ w.rc.allocated :=
  fun hb => Nat.lt_irrefl _ (h.known _ hb)

theorem Inv.items_next (h : Inv w) : Block.items w.mem.items.next ∉ w.rc.allocated :=
  fun hb => Nat.lt_irrefl _ (h.known _ hb)

theorem Inv.replace {p : Place} {b : Block} (h : Inv w) (hp : p ∈ w.rc.live) (hb : b ∉ w.rc.allocated) {mem : Mem}
    {sizes : ℕ → Sizes} (hs : w.mem.strs.next ≤ mem.strs.next) (hi : w.mem.items.next ≤ mem.items.next)
    (hk : World.Known { w with mem } b) :
    Inv { w with mem, sizes, rc := RcMem.destroy (RcMem.moveAssign (RcMem.create w.rc .mem b) p .mem) .mem } where
  counted := RcMem.counted_replace h.counted hp h.noMem hb
  both := fun j => by
    rw [RcMem.live_replace h.noMem]
    exact h.both j
  noMem := by
    rw [RcMem.live_replace h.noMem]
    exact h.noMem
  known := fun c hc => by
    rw [RcMem.allocated_replace, Finset.mem_insert] at hc
    rcases hc with rfl | hc
    · cases c <;> exact hk
    · exact (h.known c hc).mono (Nat.le_refl _) hs hi

/-- **A new block takes the place of an old one**; every handle and every older block is still there. -/
theorem Inv.grow {p : Place} {b : Block} (h : Inv w) (hp : p ∈ w.rc.live) (hb : b ∉ w.rc.allocated) {mem : Mem}
    {sizes : ℕ → Sizes} (hs : w.mem.strs.next ≤ mem.strs.next) (hi : w.mem.items.next ≤ mem.items.next)
    (hk : World.Known { w with mem } b) :
    Inv { w with mem, sizes, rc := RcMem.destroy (RcMem.moveAssign (RcMem.create w.rc .mem b) p .mem) .mem } ∧
      (RcMem.destroy (RcMem.moveAssign (RcMem.create w.rc .mem b) p .mem) .mem).live = w.rc.live ∧
      w.rc.allocated ⊆ (RcMem.destroy (RcMem.moveAssign (RcMem.create w.rc .mem b) p .mem) .mem).allocated := by
  refine ⟨h.replace hp hb hs hi hk, RcMem.live_replace h.noMem, ?_⟩
  rw [RcMem.allocated_replace]
  exact Finset.subset_insert _ _

theorem inv_growStrs {a : Alloc} {n : ℕ} (h : Inv w) (hj : Place.strs j ∈ w.rc.live) (hg : w.growStrs j a n = some w') :
    Inv w' ∧ w'.rc.live = w.rc.live ∧ w.rc.allocated ⊆ w'.rc.allocated := by
  unfold growStrs at hg
  split at hg
  · obtain ⟨fill, -, hg⟩ := Option.map_eq_some_iff.1 hg
    cases hg
    refine h.grow hj h.strs_next ?_ (Nat.le_refl _) ?_
    · rw [Heap.next_grow]
      exact Nat.le_succ _
    · change w.mem.strs.next < Heap.next _
      rw [Heap.next_grow]
      exact Nat.lt_succ_self _
  · cases hg
    exact ⟨h, rfl, Finset.Subset.refl _⟩

theorem inv_growItems {a : Alloc} {n : ℕ} (h : Inv w) (hj : Place.items j ∈ w.rc.live) (hg : w.growItems j a n = some w') :
    Inv w' ∧ w'.rc.live = w.rc.live ∧ w.rc.allocated ⊆ w'.rc.allocated := by
  unfold growItems at hg
  split at hg
  · obtain ⟨fill, -, hg⟩ := Option.map_eq_some_iff.1 hg
    cases hg
    refine h.grow hj h.items_next (Nat.le_refl _) ?_ ?_
    · rw [Heap.next_grow]
      exact Nat.le_succ _
    · change w.mem.items.next < Heap.next _
      rw [Heap.next_grow]
      exact Nat.lt_succ_self _
  · cases hg
    exact ⟨h, rfl, Finset.Subset.refl _⟩

/-- What is written into the blocks and the sizes does not matter. -/
theorem Inv.congr (h : Inv w) (hrc : w'.rc = w.rc) (hr : w'.nextRaw = w.nextRaw)
    (hs : w'.mem.strs.next = w.mem.strs.next) (hi : w'.mem.items.next = w.mem.items.next) : Inv w' where
  counted := by
    rw [hrc]
    exact h.counted
  both := fun j => by
    rw [hrc]
    exact h.both j
  noMem := by
    rw [hrc]
    exact h.noMem
  known := fun b hb => by
    rw [hrc] at hb
    exact (h.known b hb).mono (Nat.le_of_eq hr.symm) (Nat.le_of_eq hs.symm) (Nat.le_of_eq hi.symm)

theorem inv_allocItem (h : Inv w) (hj : Place.strs j ∈ w.rc.live) (a : Alloc) (bytes : ℕ) :
    Inv (w.allocItem j a bytes).2 ∧ w.rc.allocated ⊆ (w.allocItem j a bytes).2.rc.allocated := by
  unfold allocItem
  split
  · exact ⟨h, Finset.Subset.refl _⟩
  · dsimp only
    split
    · exact ⟨h, Finset.Subset.refl _⟩
    · cases hs : w.growStrs j a ((w.sizes j).mStrsSize + roundUp 16 bytes) with
      | none => exact ⟨h, Finset.Subset.refl _⟩
      | some w₁ =>
        obtain ⟨h₁, hl₁, ha₁⟩ := inv_growStrs h hj hs
        dsimp only
        cases hi : w₁.growItems j a ((w.sizes j).mItemsSize + 1) with
        | none => exact ⟨h₁, ha₁⟩
        | some w₂ =>
          have hj₁ : Place.items j ∈ w₁.rc.live := by
            rw [hl₁]
            exact (h.both j).1 hj
          obtain ⟨h₂, -, ha₂⟩ := inv_growItems h₁ hj₁ hi
          exact ⟨h₂.congr rfl rfl rfl (Heap.next_write _ _ _ _), ha₁.trans ha₂⟩

theorem inv_push (h : Inv w) (hj : Place.strs j ∈ w.rc.live) (a : Alloc) (s : Bytes) :
    Inv (w.push j a s).2 ∧ w.rc.allocated ⊆ (w.push j a s).2.rc.allocated := by
  unfold World.push
  split
  · exact ⟨h, Finset.Subset.refl _⟩
  · have hall := inv_allocItem h hj a s.length
    generalize w.allocItem j a s.length = r at hall ⊢
    obtain ⟨r, w₁⟩ := r
    cases r with
    | error e => exact hall
    | ok ptr =>
      refine ⟨hall.1.congr rfl rfl ?_ rfl, hall.2⟩
      dsimp only
      rw [Heap.next_write, Heap.next_write]

/-! ### Handles of their own -/

theorem inv_handle {i : ℕ} (h : Inv w) (hl : op.Legal (fun k => Place.handle k ∈ w.rc.live) i) :
    Inv { w with rc := RcMem.apply w.rc .handle i op } where
  counted := RcMem.counted_apply h.counted hl
  both := fun j => by
    have hother : ∀ q, q ≠ Place.handle i → (q ∈ op.liveAfter w.rc.live (.handle i) ↔ q ∈ w.rc.live) := fun q hq =>
      RcMem.Op.mem_liveAfter_of_ne hq
    rw [RcMem.live_apply]
    exact (hother (.strs j) nofun).trans ((h.both j).trans (hother (.items j) nofun).symm)
  noMem := by
    have hother : Place.mem ∈ op.liveAfter w.rc.live (.handle i) ↔ Place.mem ∈ w.rc.live :=
      RcMem.Op.mem_liveAfter_of_ne nofun
    rw [RcMem.live_apply, hother]
    exact h.noMem
  known := fun b hb => by
    rw [RcMem.allocated_apply] at hb
    exact (h.known b hb).mono (Nat.le_refl _) (Nat.le_refl _) (Nat.le_refl _)

theorem inv_create {i : ℕ} (h : Inv w) (hi : Place.handle i ∉ w.rc.live) :
    Inv { w with rc := RcMem.create w.rc (.handle i) (.raw w.nextRaw), nextRaw := w.nextRaw + 1 } where
  counted := RcMem.counted_create h.counted hi (fun hb => Nat.lt_irrefl _ (h.known _ hb))
  both := fun j => by
    have hother : ∀ q, q ≠ Place.handle i → (q ∈ insert (Place.handle i) w.rc.live ↔ q ∈ w.rc.live) := fun q hq => by
      rw [Finset.mem_insert, or_iff_right hq]
    exact (hother (.strs j) nofun).trans ((h.both j).trans (hother (.items j) nofun).symm)
  noMem := fun hm => h.noMem (Finset.mem_of_mem_insert_of_ne hm nofun)
  known := fun b hb => by
    rcases Finset.mem_insert.1 hb with rfl | hb
    · exact Nat.lt_succ_self _
    · exact (h.known b hb).mono (Nat.le_succ _) (Nat.le_refl _) (Nat.le_refl _)

/-- **Every step keeps the invariant**, and the blocks there were. -/
theorem inv_step {a : Action} (h : Inv w) (hs : step w a = some w') : Inv w' ∧ w.rc.allocated ⊆ w'.rc.allocated := by
  unfold step at hs
  split at hs
  · rename_i hl
    cases hs
    cases a with
    | create i => exact ⟨inv_create h hl, Finset.subset_insert _ _⟩
    | handle i op => exact ⟨inv_handle h hl, RcMem.allocated_apply.symm.subset⟩
    | items j op => exact ⟨inv_apply h hl, (allocated_apply w j op).symm.subset⟩
    | push j a s => exact inv_push h hl a s
  · cases hs

theorem inv_run {mem : Mem} {actions : List Action} {w : World} (hrun : run step (World.init mem) actions = some w) :
    Inv w :=
  run_inv Inv (fun _ _ _ h hs => (inv_step h hs).1) actions _ w (inv_init mem) hrun

/-! ## Moves of Items -/

/-- The handles and sizes of `b` are those of `j` now, and `b` has none. -/
theorem get_of_moved {b : ℕ} (hs : w'.rc.ptr (.strs j) = w.rc.ptr (.strs b) ∧ w'.rc.ptr (.strs b) = none)
    (hi : w'.rc.ptr (.items j) = w.rc.ptr (.items b) ∧ w'.rc.ptr (.items b) = none)
    (hz : w'.sizes = Function.update (Function.update w.sizes b {}) j (w.sizes b)) (hne : j ≠ b) :
    w'.get b = {} ∧ w'.get j = w.get b := by
  have hj : w'.sizes j = w.sizes b := by rw [hz, Function.update_self]
  have hb : w'.sizes b = {} := by rw [hz, Function.update_of_ne hne.symm, Function.update_self]
  constructor
  · rw [World.get, hs.2, hi.2, hb]
    rfl
  · rw [World.get, hs.1, hi.1, hj, World.get]

theorem get_moveConstruct {b : ℕ} (hne : j ≠ b) :
    (w.moveConstruct j b).get b = {} ∧ (w.moveConstruct j b).get j = w.get b := by
  have hs := RcMem.ptr_moveConstruct (s := w.rc) (fun he => hne (Place.strs.inj he))
  have hi := RcMem.ptr_moveConstruct (s := RcMem.moveConstruct w.rc (.strs j) (.strs b))
    (fun he => hne (Place.items.inj he))
  have hframe : ∀ k, (RcMem.moveConstruct (RcMem.moveConstruct w.rc (.strs j) (.strs b)) (.items j) (.items b)).ptr
      (.strs k) = (RcMem.moveConstruct w.rc (.strs j) (.strs b)).ptr (.strs k) := fun k =>
    RcMem.ptr_moveConstruct_of_ne nofun nofun
  have hitems : (RcMem.moveConstruct w.rc (.strs j) (.strs b)).ptr (.items b) = w.rc.ptr (.items b) :=
    RcMem.ptr_moveConstruct_of_ne nofun nofun
  exact get_of_moved ⟨(hframe j).trans hs.1, (hframe b).trans hs.2⟩ ⟨hi.1.trans hitems, hi.2⟩ rfl hne

theorem get_moveAssign {b : ℕ} (hne : j ≠ b) :
    (w.moveAssign j b).get b = {} ∧ (w.moveAssign j b).get j = w.get b := by
  have hs := RcMem.ptr_moveAssign (s := w.rc) (fun he => hne (Place.strs.inj he))
  have hi := RcMem.ptr_moveAssign (s := RcMem.moveAssign w.rc (.strs j) (.strs b)) (fun he => hne (Place.items.inj he))
  have hframe : ∀ k, (RcMem.moveAssign (RcMem.moveAssign w.rc (.strs j) (.strs b)) (.items j) (.items b)).ptr
      (.strs k) = (RcMem.moveAssign w.rc (.strs j) (.strs b)).ptr (.strs k) := fun k =>
    RcMem.ptr_moveAssign_of_ne nofun nofun
  have hitems : (RcMem.moveAssign w.rc (.strs j) (.strs b)).ptr (.items b) = w.rc.ptr (.items b) :=
    RcMem.ptr_moveAssign_of_ne nofun nofun
  unfold moveAssign
  rw [if_neg hne]
  exact get_of_moved ⟨(hframe j).trans hs.1, (hframe b).trans hs.2⟩ ⟨hi.1.trans hitems, hi.2⟩ rfl hne

/-! ## push as a function of the vector

What a push leaves of the memory and of the vector is what `Items.push` says of the two. -/

@[simp] theorem get_mStrsSize (w : World) (j : ℕ) : (w.get j).mStrsSize = (w.sizes j).mStrsSize := rfl

@[simp] theorem get_mItemsSize (w : World) (j : ℕ) : (w.get j).mItemsSize = (w.sizes j).mItemsSize := rfl

@[simp] theorem get_mMaxStrSize (w : World) (j : ℕ) : (w.get j).mMaxStrSize = (w.sizes j).mMaxStrSize := rfl

theorem growStrs_eq (w : World) (j : ℕ) (a : Alloc) (n : ℕ) :
    (w.growStrs j a n).map (fun w' => (w'.mem, w'.get j)) = (w.get j).growStrs w.mem a n := by
  unfold growStrs Items.growStrs
  change (if n > (w.get j).mStrsCap then _ else _ : Option World).map _ = _
  split
  · rw [Option.map_map]
    cases ha : a.strs with
    | none => rfl
    | some fill =>
      have hs := RcMem.ptr_replace (s := w.rc) (p := Place.strs j) (t := .mem) (m := Block.strs w.mem.strs.next) nofun
      have hitems := hs.2 (.items j) nofun nofun
      rw [Option.map_some, Option.map_some, Function.comp_apply]
      dsimp only [World.get]
      rw [hs.1, hitems, Function.update_self]
      rfl
  · rfl

theorem growItems_eq (w : World) (j : ℕ) (a : Alloc) (n : ℕ) :
    (w.growItems j a n).map (fun w' => (w'.mem, w'.get j)) = (w.get j).growItems w.mem a n := by
  unfold growItems Items.growItems
  change (if n > (w.get j).mItemsCap then _ else _ : Option World).map _ = _
  split
  · rw [Option.map_map]
    cases ha : a.items with
    | none => rfl
    | some fill =>
      have hi := RcMem.ptr_replace (s := w.rc) (p := Place.items j) (t := .mem) (m := Block.items w.mem.items.next) nofun
      have hstrs := hi.2 (.strs j) nofun nofun
      rw [Option.map_some, Option.map_some, Function.comp_apply]
      dsimp only [World.get]
      rw [hi.1, hstrs, Function.update_self]
      rfl
  · rfl

theorem allocItem_eq (w : World) (j : ℕ) (a : Alloc) (bytes : ℕ) :
    ((w.allocItem j a bytes).1, (w.allocItem j a bytes).2.mem, (w.allocItem j a bytes).2.get j) =
      (w.get j).allocItem w.mem a bytes := by
  unfold allocItem Items.allocItem
  rw [get_mItemsSize, get_mStrsSize]
  by_cases hbytes : bytes > kItemSizeMask.toNat
  · rw [if_pos hbytes, if_pos hbytes]
  rw [if_neg hbytes, if_neg hbytes]
  dsimp only
  by_cases hcount : (w.sizes j).mItemsSize + 1 > kItemOffsetMask.toNat
  · rw [if_pos hcount, if_pos hcount]
  rw [if_neg hcount, if_neg hcount, ← growStrs_eq]
  cases hs : w.growStrs j a ((w.sizes j).mStrsSize + roundUp 16 bytes) with
  | none => rfl
  | some w₁ =>
    rw [Option.map_some]
    dsimp only
    rw [← growItems_eq]
    cases hi : w₁.growItems j a ((w.sizes j).mItemsSize + 1) with
    | none => rfl
    | some w₂ =>
      rw [Option.map_some]
      dsimp only [World.get]
      rw [Function.update_self]

/-- **A push is the vector's own.** -/
theorem push_eq (w : World) (j : ℕ) (a : Alloc) (s : Bytes) :
    ((w.push j a s).1, (w.push j a s).2.mem, (w.push j a s).2.get j) = (w.get j).push w.mem a s := by
  unfold World.push Items.push
  split
  · rfl
  · rw [← allocItem_eq]
    generalize w.allocItem j a s.length = r
    obtain ⟨r, w₁⟩ := r
    cases r with
    | error e => rfl
    | ok ptr =>
      dsimp only
      rw [get_mMaxStrSize]
      split
      · dsimp only [World.get]
        rw [Function.update_self]
      · rfl

/-! ## Every run -/

/-- **A step frees a block exactly when its last handle goes.** -/
theorem freed_step_iff {a : Action} (h : Inv w) (hs : step w a = some w') {b : Block} (hb : b ∈ w.rc.allocated) :
    (b ∉ w.rc.freed ∧ b ∈ w'.rc.freed) ↔ w.rc.holders b ≠ ∅ ∧ w'.rc.holders b = ∅ := by
  obtain ⟨h', hsub⟩ := inv_step h hs
  rw [h.counted.mem_freed_iff hb, h'.counted.mem_freed_iff (hsub hb)]

theorem moved_step {a : Action} (hs : step w a = some w') {i : ℕ} (hne : i ≠ j)
    (ha : a = .items j (.moveConstruct i) ∨ a = .items j (.moveAssign i)) :
    w'.get i = {} ∧ w'.get j = w.get i ∧ w'.mem = w.mem := by
  unfold step at hs
  split at hs
  · cases hs
    rcases ha with rfl | rfl
    · have hget := get_moveConstruct (w := w) hne.symm
      exact ⟨hget.1, hget.2, rfl⟩
    · have hget := get_moveAssign (w := w) hne.symm
      exact ⟨hget.1, hget.2, (mem_apply w j (.moveAssign i)).1⟩
  · cases hs

/-- **The counts of all handles**, after any operations on them and on the vectors built from them: no counter of a freed
block was touched, every block that is there is counted by its handles, a block is freed once and exactly when it has none,
no handle has a freed block, and a vector moved into another one leaves all it had to it. -/
theorem handles_counted (mem : Mem) (actions : List Action) (w : World)
    (hrun : run step (World.init mem) actions = some w) :
    w.rc.fault = false ∧
      (∀ b ∈ w.rc.allocated, b ∉ w.rc.freed → w.rc.count b = (w.rc.holders b).card) ∧
      (∀ b ∈ w.rc.allocated, b ∈ w.rc.freed ↔ w.rc.holders b = ∅) ∧ w.rc.freed.Nodup ∧
      (∀ p ∈ w.rc.live, ∀ b, w.rc.ptr p = some b → b ∈ w.rc.allocated ∧ b ∉ w.rc.freed) ∧
      ∀ (a : Action) (w' : World), step w a = some w' →
        (∀ b ∈ w.rc.allocated, (b ∉ w.rc.freed ∧ b ∈ w'.rc.freed) ↔ w.rc.holders b ≠ ∅ ∧ w'.rc.holders b = ∅) ∧
        ∀ i j, i ≠ j → a = .items j (.moveConstruct i) ∨ a = .items j (.moveAssign i) →
          w'.get i = {} ∧ w'.get j = w.get i ∧ w'.mem = w.mem := by
  have h := inv_run hrun
  exact ⟨h.counted.fault, fun b ha hf => h.counted.count b ⟨ha, hf⟩, fun b hb => h.counted.mem_freed_iff hb,
    h.counted.nodup, h.counted.there, fun a w' hs =>
      ⟨fun b hb => freed_step_iff h hs hb, fun i j hne ha => moved_step hs hne ha⟩⟩

/-- Two handles to one block, one moved onto the other, and a vector that is copied and then moved onto its copy. -/
theorem handles_counted_moved : ∃ w, run step (World.init .empty)
      [.create 0, .handle 1 (.copyConstruct 0), .handle 0 (.moveAssign 1), .items 0 .construct,
        .push 0 ⟨some (fun _ => 7), some (fun _ => 9)⟩ [97, 98], .items 1 (.copyConstruct 0), .items 0 (.moveAssign 1),
        .handle 0 .clear] = some w ∧
    w.rc.fault = false ∧ w.rc.freed = [.raw 0] ∧ w.rc.holders (.raw 0) = ∅ ∧ w.rc.count (.strs 0) = 1 ∧
    (w.rc.holders (.strs 0)).card = 1 := by
  have h := handles_counted .empty
    [.create 0, .handle 1 (.copyConstruct 0), .handle 0 (.moveAssign 1), .items 0 .construct,
      .push 0 ⟨some (fun _ => 7), some (fun _ => 9)⟩ [97, 98], .items 1 (.copyConstruct 0), .items 0 (.moveAssign 1),
      .handle 0 .clear] _ rfl
  exact ⟨_, rfl, h.1, rfl, (h.2.2.1 (.raw 0) (by decide +kernel)).1 (by decide +kernel), by decide +kernel,
    by decide +kernel⟩

end Counts
end Fzx
