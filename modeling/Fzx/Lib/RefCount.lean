import Mathlib
/-!
# RefCount — blocks counted by the handles to them

Handles live at places; each is null or points to a block, and a block has a counter.  What moves pointers and counters
is left to the program: here are the single moves (`incr`, `decr`, `setPtr`, …), the invariant `Counted`, and the
combinations of moves that keep it.  `freed` is the log of the calls that free a block, and `fault` says that the counter of
a block was touched that was not there.
-/
namespace Lib

structure Refs (π β : Type) where
  live : Finset π
  ptr : π → Option β
  count : β → ℕ
  allocated : Finset β
  freed : List β
  fault : Bool

namespace Refs

variable {π β : Type} [DecidableEq β]

def empty : Refs π β :=
  { live := ∅, ptr := fun _ => none, count := fun _ => 0, allocated := ∅, freed := [], fault := false }

/-- The live handles to a block. -/
def holders (s : Refs π β) (b : β) : Finset π := s.live.filter (fun p => s.ptr p = some b)

/-- Allocated and not freed. -/
def There (s : Refs π β) (b : β) : Prop := b ∈ s.allocated ∧ b ∉ s.freed

instance (s : Refs π β) (b : β) : Decidable (s.There b) := inferInstanceAs (Decidable (_ ∧ _))

/-! ## Counters -/

def incr (s : Refs π β) : Option β → Refs π β
  | none => s
  | some b =>
    if s.There b then { s with count := Function.update s.count b (s.count b + 1) } else { s with fault := true }

/-- The block is freed when its counter was 1. -/
def decr (s : Refs π β) : Option β → Refs π β
  | none => s
  | some b =>
    if s.There b then
      { s with count := Function.update s.count b (s.count b - 1)
               freed := if s.count b = 1 then s.freed ++ [b] else s.freed }
    else { s with fault := true }

/-- A new block, counted once. -/
def alloc (s : Refs π β) (b : β) : Refs π β :=
  { s with allocated := insert b s.allocated, count := Function.update s.count b 1 }

section Count

variable (s : Refs π β) (o : Option β) (b : β)

theorem incr_some : s.incr (some b) =
    if s.There b then { s with count := Function.update s.count b (s.count b + 1) } else { s with fault := true } := rfl

theorem decr_some : s.decr (some b) =
    if s.There b then
      { s with count := Function.update s.count b (s.count b - 1)
               freed := if s.count b = 1 then s.freed ++ [b] else s.freed }
    else { s with fault := true } := rfl

/-! A counter changes: the handles and the blocks there are stay. -/

theorem frame_incr : (s.incr o).ptr = s.ptr ∧ (s.incr o).live = s.live ∧ (s.incr o).allocated = s.allocated := by
  cases o with
  | none => exact ⟨rfl, rfl, rfl⟩
  | some b =>
    rw [incr_some]
    split <;> exact ⟨rfl, rfl, rfl⟩

@[simp] theorem ptr_incr : (s.incr o).ptr = s.ptr := (frame_incr s o).1

@[simp] theorem live_incr : (s.incr o).live = s.live := (frame_incr s o).2.1

@[simp] theorem allocated_incr : (s.incr o).allocated = s.allocated := (frame_incr s o).2.2

theorem frame_decr : (s.decr o).ptr = s.ptr ∧ (s.decr o).live = s.live ∧ (s.decr o).allocated = s.allocated := by
  cases o with
  | none => exact ⟨rfl, rfl, rfl⟩
  | some b =>
    rw [decr_some]
    split <;> exact ⟨rfl, rfl, rfl⟩

@[simp] theorem ptr_decr : (s.decr o).ptr = s.ptr := (frame_decr s o).1

@[simp] theorem live_decr : (s.decr o).live = s.live := (frame_decr s o).2.1

@[simp] theorem allocated_decr : (s.decr o).allocated = s.allocated := (frame_decr s o).2.2

section There

variable {s} {b}

/-- **One handle more**: only the counter of the block changes. -/
theorem incr_eq (hb : s.There b) :
    s.incr (some b) = { s with count := Function.update s.count b (s.count b + 1) } := by
  rw [incr_some, if_pos hb]

/-- **One handle less**: the counter goes down, and the block goes with its last one. -/
theorem decr_eq (hb : s.There b) : s.decr (some b) =
    { s with count := Function.update s.count b (s.count b - 1)
             freed := if s.count b = 1 then s.freed ++ [b] else s.freed } := by
  rw [decr_some, if_pos hb]

theorem mem_freed_decr (hb : s.There b) (c : β) :
    c ∈ (s.decr (some b)).freed ↔ c ∈ s.freed ∨ c = b ∧ s.count b = 1 := by
  rw [decr_eq hb]
  dsimp only
  split
  · rename_i h1
    rw [List.mem_append, List.mem_singleton, and_iff_left h1]
  · rename_i h1
    rw [or_iff_left (fun hc => h1 hc.2)]

theorem there_decr (hb : s.There b) (c : β) :
    (s.decr (some b)).There c ↔ s.There c ∧ (c = b → s.count b ≠ 1) := by
  rw [There, There, allocated_decr, mem_freed_decr hb, not_or, not_and, and_assoc]

theorem count_decr_self (hb : s.There b) : (s.decr (some b)).count b = s.count b - 1 := by
  rw [decr_eq hb]
  exact Function.update_self _ _ _

theorem count_decr_of_ne (hb : s.There b) {c : β} (hc : c ≠ b) : (s.decr (some b)).count c = s.count c := by
  rw [decr_eq hb]
  exact Function.update_of_ne hc _ _

theorem fault_decr (hb : s.There b) : (s.decr (some b)).fault = s.fault := by rw [decr_eq hb]

theorem nodup_freed_decr (hb : s.There b) (h : s.freed.Nodup) : (s.decr (some b)).freed.Nodup := by
  rw [decr_eq hb]
  dsimp only
  split
  · exact List.nodup_append_comm.1 (List.nodup_cons.2 ⟨hb.2, h⟩)
  · exact h

end There

@[simp] theorem live_alloc : (s.alloc b).live = s.live := rfl

@[simp] theorem ptr_alloc : (s.alloc b).ptr = s.ptr := rfl

@[simp] theorem allocated_alloc : (s.alloc b).allocated = insert b s.allocated := rfl

end Count

/-! ## The invariant -/

/-- **Every block is counted by its holders** and freed exactly when there is none. -/
structure Counted (s : Refs π β) : Prop where
  fault : s.fault = false
  count : ∀ b, s.There b → s.count b = (s.holders b).card
  held : ∀ b, s.There b → (s.holders b).Nonempty
  there : ∀ p ∈ s.live, ∀ b, s.ptr p = some b → s.There b
  allocated : ∀ b ∈ s.freed, b ∈ s.allocated
  nodup : s.freed.Nodup

theorem counted_empty : Counted (empty : Refs π β) where
  fault := rfl
  count := fun _ hb => absurd hb.1 (Finset.notMem_empty _)
  held := fun _ hb => absurd hb.1 (Finset.notMem_empty _)
  there := fun _ hp => absurd hp (Finset.notMem_empty _)
  allocated := nofun
  nodup := List.nodup_nil

theorem mem_holders {s : Refs π β} {q : π} {b : β} : q ∈ s.holders b ↔ q ∈ s.live ∧ s.ptr q = some b := Finset.mem_filter

theorem holders_congr {s s' : Refs π β} (hl : s'.live = s.live) (hp : s'.ptr = s.ptr) : s'.holders = s.holders := by
  funext b
  rw [holders, holders, hl, hp]

theorem notMem_holders_of_ne {s : Refs π β} {p : π} {b : β} (h : s.ptr p ≠ some b) : p ∉ s.holders b :=
  fun hp => h (mem_holders.1 hp).2

/-- **A block is freed exactly when it has no handle.** -/
theorem Counted.mem_freed_iff {s : Refs π β} {b : β} (h : Counted s) (hb : b ∈ s.allocated) :
    b ∈ s.freed ↔ s.holders b = ∅ := by
  constructor
  · intro hf
    refine Finset.eq_empty_of_forall_notMem (fun q hq => ?_)
    exact (h.there q (mem_holders.1 hq).1 b (mem_holders.1 hq).2).2 hf
  · intro he
    by_contra hf
    exact Finset.nonempty_iff_ne_empty.1 (h.held b ⟨hb, hf⟩) he

/-! ## Handles -/

variable [DecidableEq π]

def setPtr (s : Refs π β) (p : π) (o : Option β) : Refs π β := { s with ptr := Function.update s.ptr p o }

/-- The lifetime of a handle begins; it is null. -/
def start (s : Refs π β) (p : π) : Refs π β := { s.setPtr p none with live := insert p s.live }

/-- The lifetime of a handle ends; nothing is left of it. -/
def finish (s : Refs π β) (p : π) : Refs π β := { s.setPtr p none with live := s.live.erase p }

section Ptr

omit [DecidableEq β]

variable (s : Refs π β) (p : π) (o : Option β)

@[simp] theorem live_setPtr : (s.setPtr p o).live = s.live := rfl

@[simp] theorem allocated_setPtr : (s.setPtr p o).allocated = s.allocated := rfl

@[simp] theorem ptr_setPtr_self : (s.setPtr p o).ptr p = o := Function.update_self _ _ _

theorem ptr_setPtr_of_ne {p q : π} (h : q ≠ p) : (s.setPtr p o).ptr q = s.ptr q := Function.update_of_ne h _ _

theorem setPtr_setPtr (o' : Option β) : (s.setPtr p o).setPtr p o' = s.setPtr p o' := by
  rw [setPtr, setPtr, setPtr, Function.update_idem]

theorem setPtr_comm {p q : π} (h : p ≠ q) (o' : Option β) : (s.setPtr p o).setPtr q o' = (s.setPtr q o').setPtr p o := by
  rw [setPtr, setPtr, setPtr, setPtr, Function.update_comm h]

theorem setPtr_eq_self {p : π} {o : Option β} (h : s.ptr p = o) : s.setPtr p o = s := by
  rw [setPtr, ← h, Function.update_eq_self]

@[simp] theorem live_start : (s.start p).live = insert p s.live := rfl

@[simp] theorem allocated_start : (s.start p).allocated = s.allocated := rfl

@[simp] theorem ptr_start_self : (s.start p).ptr p = none := Function.update_self _ _ _

theorem ptr_start_of_ne {p q : π} (h : q ≠ p) : (s.start p).ptr q = s.ptr q := Function.update_of_ne h _ _

@[simp] theorem live_finish : (s.finish p).live = s.live.erase p := rfl

@[simp] theorem allocated_finish : (s.finish p).allocated = s.allocated := rfl

theorem finish_setPtr : (s.setPtr p o).finish p = s.finish p := by rw [finish, setPtr_setPtr, finish]; rfl

theorem ptr_finish_of_ne {p q : π} (h : q ≠ p) : (s.finish p).ptr q = s.ptr q := Function.update_of_ne h _ _

end Ptr

/-! ## Holders -/

variable {s : Refs π β} {p q : π} {o : Option β} {b : β}

/-- A handle that is set to a block joins its holders. -/
theorem holders_setPtr_some (hp : p ∈ s.live) : (s.setPtr p (some b)).holders b = insert p (s.holders b) := by
  ext q
  rw [mem_holders, Finset.mem_insert, mem_holders, live_setPtr]
  by_cases h : q = p
  · subst h
    exact ⟨fun _ => .inl rfl, fun _ => ⟨hp, ptr_setPtr_self s q _⟩⟩
  · rw [ptr_setPtr_of_ne s _ h, or_iff_right h]

/-- A handle that is set to anything else leaves them. -/
theorem holders_setPtr_of_ne (ho : o ≠ some b) : (s.setPtr p o).holders b = (s.holders b).erase p := by
  ext q
  rw [mem_holders, Finset.mem_erase, mem_holders, live_setPtr]
  by_cases h : q = p
  · subst h
    rw [ptr_setPtr_self]
    exact ⟨fun hq => absurd hq.2 ho, fun hq => absurd rfl hq.1⟩
  · rw [ptr_setPtr_of_ne s _ h]
    exact ⟨fun hq => ⟨h, hq⟩, fun hq => hq.2⟩

theorem holders_start (hp : p ∉ s.live) : (s.start p).holders b = s.holders b := by
  ext q
  rw [mem_holders, mem_holders, live_start, Finset.mem_insert]
  by_cases h : q = p
  · subst h
    rw [ptr_start_self]
    exact ⟨fun hq => absurd hq.2 (Option.some_ne_none b).symm, fun hq => absurd hq.1 hp⟩
  · rw [ptr_start_of_ne s h, or_iff_right h]

theorem holders_finish (hp : s.ptr p = none) : (s.finish p).holders b = s.holders b := by
  ext q
  rw [mem_holders, mem_holders, live_finish, Finset.mem_erase]
  by_cases h : q = p
  · subst h
    rw [hp]
    exact ⟨fun hq => absurd rfl hq.1.1, fun hq => absurd hq.2 (Option.some_ne_none b).symm⟩
  · rw [ptr_finish_of_ne s h, and_iff_right h]

/-! ## What keeps the invariant -/

theorem Counted.start (h : Counted s) (hp : p ∉ s.live) : Counted (s.start p) where
  fault := h.fault
  count := fun b hb => by
    rw [holders_start hp]
    exact h.count b hb
  held := fun b hb => by
    rw [holders_start hp]
    exact h.held b hb
  there := fun q hq b hqb => by
    have hne : q ≠ p := by
      rintro rfl
      rw [ptr_start_self] at hqb
      cases hqb
    rw [ptr_start_of_ne s hne] at hqb
    exact h.there q (Finset.mem_of_mem_insert_of_ne hq hne) b hqb
  allocated := h.allocated
  nodup := h.nodup

theorem Counted.finish (h : Counted s) (hp : s.ptr p = none) : Counted (s.finish p) where
  fault := h.fault
  count := fun b hb => by
    rw [holders_finish hp]
    exact h.count b hb
  held := fun b hb => by
    rw [holders_finish hp]
    exact h.held b hb
  there := fun q hq b hqb => by
    rw [live_finish, Finset.mem_erase] at hq
    rw [ptr_finish_of_ne s hq.1] at hqb
    exact h.there q hq.2 b hqb
  allocated := h.allocated
  nodup := h.nodup

/-- **A null handle takes what another one has**, and counts it. -/
theorem Counted.take (h : Counted s) (hp : p ∈ s.live) (hnull : s.ptr p = none) (ho : ∀ b, o = some b → s.There b) :
    Counted ((s.setPtr p o).incr o) := by
  cases o with
  | none => rwa [setPtr_eq_self s hnull]
  | some b =>
    have hb := ho b rfl
    have hthere : (s.setPtr p (some b)).There b := hb
    have hnot : p ∉ s.holders b := notMem_holders_of_ne (by rw [hnull]; exact (Option.some_ne_none b).symm)
    have hself := holders_setPtr_some (b := b) hp
    have hother : ∀ c, c ≠ b → (s.setPtr p (some b)).holders c = s.holders c := fun c hc => by
      rw [holders_setPtr_of_ne (fun he => hc (Option.some.inj he).symm), Finset.erase_eq_of_notMem]
      exact notMem_holders_of_ne (by rw [hnull]; exact (Option.some_ne_none c).symm)
    have hhold : ((s.setPtr p (some b)).incr (some b)).holders = (s.setPtr p (some b)).holders :=
      holders_congr (live_incr _ _) (ptr_incr _ _)
    rw [incr_eq hthere] at hhold ⊢
    refine ⟨h.fault, fun c hc => ?_, fun c hc => ?_, fun q hq c hqc => ?_, h.allocated, h.nodup⟩
    · rw [hhold]
      by_cases hcb : c = b
      · rw [hcb, hself, Finset.card_insert_of_notMem hnot, ← h.count b hb]
        exact Function.update_self _ _ _
      · rw [hother c hcb, ← h.count c hc]
        exact Function.update_of_ne hcb _ _
    · rw [hhold]
      by_cases hcb : c = b
      · rw [hcb, hself]
        exact Finset.insert_nonempty _ _
      · rw [hother c hcb]
        exact h.held c hc
    · by_cases hqp : q = p
      · subst hqp
        obtain rfl : b = c := Option.some.inj ((ptr_setPtr_self s q _).symm.trans hqc)
        exact hb
      · exact h.there q hq c ((ptr_setPtr_of_ne s _ hqp).symm.trans hqc)

theorem holders_drop (c : β) : ((s.decr o).setPtr p none).holders c = (s.holders c).erase p := by
  rw [holders_setPtr_of_ne (Option.some_ne_none c).symm, holders_congr (live_decr s o) (ptr_decr s o)]

/-- **A handle lets go of what it has**, and the block is freed if no other one has it. -/
theorem Counted.drop (h : Counted s) (hp : p ∈ s.live) : Counted ((s.decr (s.ptr p)).setPtr p none) := by
  cases ho : s.ptr p with
  | none =>
    have hself : (s.decr none).setPtr p none = s := setPtr_eq_self s ho
    rwa [hself]
  | some b =>
    have hb := h.there p hp b ho
    have hmem : p ∈ s.holders b := mem_holders.2 ⟨hp, ho⟩
    have hcount := h.count b hb
    have hcard : ((s.holders b).erase p).card = s.count b - 1 := by rw [Finset.card_erase_of_mem hmem, hcount]
    have hother : ∀ c, c ≠ b → (s.holders c).erase p = s.holders c := fun c hc =>
      Finset.erase_eq_of_notMem (notMem_holders_of_ne (by rw [ho]; exact fun he => hc (Option.some.inj he).symm))
    refine ⟨(fault_decr hb).trans h.fault, fun c hc => ?_, fun c hc => ?_, fun q hq c hqc => ?_, fun c hc => ?_,
      nodup_freed_decr hb h.nodup⟩
    · have hc := (there_decr hb c).1 hc
      rw [holders_drop]
      by_cases hcb : c = b
      · rw [hcb, hcard]
        exact count_decr_self hb
      · rw [hother c hcb, ← h.count c hc.1]
        exact count_decr_of_ne hb hcb
    · have hc := (there_decr hb c).1 hc
      rw [holders_drop]
      by_cases hcb : c = b
      · have hne := hc.2 hcb
        have hpos := Finset.card_pos.2 ⟨p, hmem⟩
        rw [hcb, ← Finset.card_pos, hcard]
        omega
      · rw [hother c hcb]
        exact h.held c hc.1
    · have hqp : q ≠ p := by
        rintro rfl
        rw [ptr_setPtr_self] at hqc
        cases hqc
      rw [ptr_setPtr_of_ne _ _ hqp, ptr_decr] at hqc
      rw [live_setPtr, live_decr] at hq
      refine (there_decr hb c).2 ⟨h.there q hq c hqc, ?_⟩
      -- a second holder would have been counted
      rintro rfl h1
      have hle : (s.holders c).card ≤ 1 := by omega
      exact hqp (Finset.card_le_one.1 hle q (mem_holders.2 ⟨hq, hqc⟩) p hmem)
    · rw [allocated_setPtr, allocated_decr]
      rcases (mem_freed_decr hb c).1 hc with hc | ⟨rfl, -⟩
      · exact h.allocated c hc
      · exact hb.1

/-- **A null handle takes over** what another one has, which is null then. -/
theorem Counted.move (h : Counted s) (hp : p ∈ s.live) (hq : q ∈ s.live) (hnull : s.ptr p = none) (hne : p ≠ q) :
    Counted ((s.setPtr q none).setPtr p (s.ptr q)) := by
  have hptr : ∀ r, r ≠ p → r ≠ q → ((s.setPtr q none).setPtr p (s.ptr q)).ptr r = s.ptr r := fun r hrp hrq => by
    rw [ptr_setPtr_of_ne _ _ hrp, ptr_setPtr_of_ne _ _ hrq]
  have hq' : ((s.setPtr q none).setPtr p (s.ptr q)).ptr q = none := by
    rw [ptr_setPtr_of_ne _ _ hne.symm, ptr_setPtr_self]
  have hnot : ∀ b, p ∉ s.holders b := fun b => notMem_holders_of_ne (by rw [hnull]; exact (Option.some_ne_none b).symm)
  have hhold : ∀ b, s.ptr q ≠ some b → ((s.setPtr q none).setPtr p (s.ptr q)).holders b = s.holders b := fun b hb => by
    rw [holders_setPtr_of_ne hb, holders_setPtr_of_ne (Option.some_ne_none b).symm,
      Finset.erase_eq_of_notMem (notMem_holders_of_ne hb), Finset.erase_eq_of_notMem (hnot b)]
  have hheld : ∀ b, s.ptr q = some b →
      ((s.setPtr q none).setPtr p (s.ptr q)).holders b = insert p ((s.holders b).erase q) := fun b hb => by
    rw [hb, holders_setPtr_some (by exact hp), holders_setPtr_of_ne (Option.some_ne_none b).symm]
  refine ⟨h.fault, fun b hb => ?_, fun b hb => ?_, fun r hr b hrb => ?_, h.allocated, h.nodup⟩
  · have hcount : s.count b = (s.holders b).card := h.count b hb
    by_cases hqb : s.ptr q = some b
    · have hmem : q ∈ s.holders b := mem_holders.2 ⟨hq, hqb⟩
      rw [hheld b hqb, Finset.card_insert_of_notMem (fun hm => hnot b (Finset.mem_of_mem_erase hm)),
        Finset.card_erase_add_one hmem]
      exact hcount
    · rw [hhold b hqb]
      exact hcount
  · by_cases hqb : s.ptr q = some b
    · rw [hheld b hqb]
      exact Finset.insert_nonempty _ _
    · rw [hhold b hqb]
      exact h.held b hb
  · by_cases hrp : r = p
    · rw [hrp, ptr_setPtr_self] at hrb
      exact h.there q hq b hrb
    · by_cases hrq : r = q
      · rw [hrq, hq'] at hrb
        cases hrb
      · rw [hptr r hrp hrq] at hrb
        exact h.there r hr b hrb

/-- **A null handle gets a new block.** -/
theorem Counted.create (h : Counted s) (hp : p ∈ s.live) (hnull : s.ptr p = none) (hb : b ∉ s.allocated) :
    Counted ((s.alloc b).setPtr p (some b)) := by
  have hfreed : b ∉ s.freed := fun hf => hb (h.allocated b hf)
  have hempty : s.holders b = ∅ := Finset.eq_empty_of_forall_notMem (fun q hq =>
    hb (h.there q (mem_holders.1 hq).1 b (mem_holders.1 hq).2).1)
  have hself : ((s.alloc b).setPtr p (some b)).holders b = {p} := by
    have halloc : (s.alloc b).holders b = s.holders b := rfl
    rw [holders_setPtr_some (by exact hp), halloc, hempty]
    rfl
  have hother : ∀ c, c ≠ b → ((s.alloc b).setPtr p (some b)).holders c = s.holders c := fun c hc => by
    have halloc : (s.alloc b).holders c = s.holders c := rfl
    rw [holders_setPtr_of_ne (fun he => hc (Option.some.inj he).symm), halloc, Finset.erase_eq_of_notMem]
    exact notMem_holders_of_ne (by rw [hnull]; exact (Option.some_ne_none c).symm)
  have hthere : ∀ c, c ≠ b → ((s.alloc b).setPtr p (some b)).There c → s.There c := fun c hc ht =>
    ⟨Finset.mem_of_mem_insert_of_ne ht.1 hc, ht.2⟩
  refine ⟨h.fault, fun c hc => ?_, fun c hc => ?_, fun q hq c hqc => ?_, fun c hc => ?_, h.nodup⟩
  · by_cases hcb : c = b
    · rw [hcb, hself, Finset.card_singleton]
      exact Function.update_self _ _ _
    · rw [hother c hcb, ← h.count c (hthere c hcb hc)]
      exact Function.update_of_ne hcb _ _
  · by_cases hcb : c = b
    · rw [hcb, hself]
      exact Finset.singleton_nonempty p
    · rw [hother c hcb]
      exact h.held c (hthere c hcb hc)
  · by_cases hqp : q = p
    · subst hqp
      obtain rfl : b = c := Option.some.inj ((ptr_setPtr_self _ q _).symm.trans hqc)
      exact ⟨Finset.mem_insert_self _ _, hfreed⟩
    · have hc := h.there q hq c ((ptr_setPtr_of_ne _ _ hqp).symm.trans hqc)
      exact ⟨Finset.mem_insert_of_mem hc.1, hc.2⟩
  · exact Finset.mem_insert_of_mem (h.allocated c hc)

end Refs
end Lib
