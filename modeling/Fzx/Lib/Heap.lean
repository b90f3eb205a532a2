import Mathlib
/-!
# Heap — blocks of cells behind handles

A heap hands out blocks under fresh numbers; a handle is such a number, or null.  A new block holds whatever the caller
says was there before.  `Keeps h h' n` is the frame: `h'` still has the first `n` cells of every block of `h`, so that a
reader of those cells does not see what was written behind them or into newer blocks (`Keeps.read`).
-/
namespace Lib

structure Block (α : Type) where
  size : ℕ
  cell : ℕ → α

structure Heap (α : Type) where
  next : ℕ
  block : ℕ → Block α

namespace Heap

variable {α : Type}

/-- A new block; its number is `h.next`. -/
def create (h : Heap α) (size : ℕ) (fill : ℕ → α) : Heap α :=
  { next := h.next + 1, block := Function.update h.block h.next { size, cell := fill } }

/-- The cells from `off` on; nothing behind a null handle. -/
def read (h : Heap α) (p : Option ℕ) (off len : ℕ) : List α :=
  p.elim [] (fun p => (List.range len).map (fun k => (h.block p).cell (off + k)))

/-- Cell `k` of a block after `xs` was written to it from `off` on. -/
def writeCell (cell : ℕ → α) (off : ℕ) (xs : List α) (k : ℕ) : α :=
  if k < off then cell k else (xs[k - off]?).getD (cell k)

def write (h : Heap α) (p : Option ℕ) (off : ℕ) (xs : List α) : Heap α :=
  p.elim h (fun p => { h with
    block := Function.update h.block p { h.block p with cell := writeCell (h.block p).cell off xs } })

/-- A new block that begins with the first `len` cells of another one. -/
def grow (h : Heap α) (size : ℕ) (fill : ℕ → α) (p : Option ℕ) (len : ℕ) : Heap α :=
  let mem := h.create size fill
  if len ≠ 0 then mem.write (some h.next) 0 (mem.read p 0 len) else mem

/-! ## Cells -/

theorem writeCell_of_lt {cell : ℕ → α} {off k : ℕ} (h : k < off) (xs : List α) : writeCell cell off xs k = cell k :=
  if_pos h

theorem writeCell_add (cell : ℕ → α) (off : ℕ) {xs : List α} {k : ℕ} (h : k < xs.length) :
    writeCell cell off xs (off + k) = xs[k] := by
  rw [writeCell, if_neg (by omega), Nat.add_sub_cancel_left, List.getElem?_eq_getElem h, Option.getD_some]

theorem writeCell_of_le {cell : ℕ → α} {off k : ℕ} {xs : List α} (h : off + xs.length ≤ k) :
    writeCell cell off xs k = cell k := by
  rw [writeCell, if_neg (by omega), List.getElem?_eq_none (by omega), Option.getD_none]

/-! ## Reading -/

@[simp] theorem read_zero (h : Heap α) (p : Option ℕ) (off : ℕ) : h.read p off 0 = [] := by
  cases p <;> rfl

theorem read_some (h : Heap α) (p off len : ℕ) :
    h.read (some p) off len = (List.range len).map (fun k => (h.block p).cell (off + k)) := rfl

@[simp] theorem length_read_some (h : Heap α) (p off len : ℕ) : (h.read (some p) off len).length = len := by
  rw [read_some, List.length_map, List.length_range]

theorem read_add (h : Heap α) (p : Option ℕ) (off a b : ℕ) :
    h.read p off (a + b) = h.read p off a ++ h.read p (off + a) b := by
  cases p with
  | none => rfl
  | some p =>
    rw [read_some, read_some, read_some, List.range_add, List.map_append, List.map_map]
    congr 2
    funext k
    rw [Function.comp_apply, Nat.add_assoc]

/-- A part of what is read. -/
theorem read_of_read_eq {h : Heap α} {p : Option ℕ} {off n : ℕ} {xs ys zs : List α}
    (hr : h.read p off n = xs ++ ys ++ zs) : h.read p (off + xs.length) ys.length = ys := by
  cases p with
  | none =>
    have hnil : xs ++ ys ++ zs = [] := hr.symm
    rw [List.append_assoc, List.append_eq_nil_iff, List.append_eq_nil_iff] at hnil
    rw [hnil.2.1]
    rfl
  | some p =>
    have hn : n = xs.length + ys.length + zs.length := by
      rw [← length_read_some h p off n, hr, List.length_append, List.length_append]
    rw [hn, read_add, read_add] at hr
    obtain ⟨hr, -⟩ := List.append_inj hr (by simp)
    exact (List.append_inj hr (by simp)).2

theorem read_drop_take {h : Heap α} {p : Option ℕ} {n o k : ℕ} {xs : List α} (hr : h.read p 0 n = xs)
    (hk : o + k ≤ xs.length) : h.read p o k = (xs.drop o).take k := by
  have hxs : xs = xs.take o ++ (xs.drop o).take k ++ (xs.drop o).drop k := by
    rw [List.append_assoc, List.take_append_drop, List.take_append_drop]
  have hpart := read_of_read_eq (hr.trans hxs)
  rwa [Nat.zero_add, List.length_take, List.length_take, List.length_drop, Nat.min_eq_left (by omega),
    Nat.min_eq_left (by omega)] at hpart

theorem read_congr {h h' : Heap α} {p : Option ℕ} {off len : ℕ}
    (hc : ∀ q, p = some q → ∀ k, off ≤ k → k < off + len → (h'.block q).cell k = (h.block q).cell k) :
    h'.read p off len = h.read p off len := by
  cases p with
  | none => rfl
  | some p =>
    rw [read_some, read_some]
    refine List.map_congr_left (fun k hk => ?_)
    have hk := List.mem_range.1 hk
    exact hc p rfl (off + k) (by omega) (by omega)

/-! ## Writing and creating -/

theorem block_write (h : Heap α) (p off : ℕ) (xs : List α) :
    (h.write (some p) off xs).block p = { h.block p with cell := writeCell (h.block p).cell off xs } :=
  Function.update_self _ _ _

theorem block_write_of_ne (h : Heap α) {p q : ℕ} (hq : q ≠ p) (off : ℕ) (xs : List α) :
    (h.write (some p) off xs).block q = h.block q := Function.update_of_ne hq _ _

@[simp] theorem next_write (h : Heap α) (p : Option ℕ) (off : ℕ) (xs : List α) : (h.write p off xs).next = h.next := by
  cases p <;> rfl

@[simp] theorem size_write (h : Heap α) (p : Option ℕ) (off : ℕ) (xs : List α) (q : ℕ) :
    ((h.write p off xs).block q).size = (h.block q).size := by
  cases p with
  | none => rfl
  | some p =>
    by_cases hq : q = p
    · rw [hq, block_write]
    · rw [block_write_of_ne h hq]

@[simp] theorem next_create (h : Heap α) (size : ℕ) (fill : ℕ → α) : (h.create size fill).next = h.next + 1 := rfl

theorem block_create (h : Heap α) (size : ℕ) (fill : ℕ → α) :
    (h.create size fill).block h.next = { size, cell := fill } := Function.update_self _ _ _

theorem block_create_of_ne (h : Heap α) {q : ℕ} (hq : q ≠ h.next) (size : ℕ) (fill : ℕ → α) :
    (h.create size fill).block q = h.block q := Function.update_of_ne hq _ _

/-- **What was written is read back**, also a part of it. -/
theorem read_write (h : Heap α) (p off : ℕ) (xs : List α) {a b : ℕ} (hb : a + b ≤ xs.length) :
    (h.write (some p) off xs).read (some p) (off + a) b = (xs.drop a).take b := by
  rw [read_some]
  apply List.ext_getElem
  · rw [List.length_map, List.length_range, List.length_take, List.length_drop]
    omega
  · intro k h1 h2
    have hk : k < b := by simpa using h1
    rw [List.getElem_map, List.getElem_range, List.getElem_take, List.getElem_drop, block_write]
    dsimp only
    rw [Nat.add_assoc, writeCell_add _ _ (by omega)]

theorem read_write_all (h : Heap α) (p off : ℕ) (xs : List α) :
    (h.write (some p) off xs).read (some p) off xs.length = xs := by
  have hr := h.read_write p off xs (a := 0) (b := xs.length) (by omega)
  rwa [Nat.add_zero, List.drop_zero, List.take_length] at hr

/-- What lies before or behind the write is not changed. -/
theorem read_write_of_disjoint (h : Heap α) (p : Option ℕ) {off off' len : ℕ} {xs : List α}
    (hd : off' + len ≤ off ∨ off + xs.length ≤ off') : (h.write p off xs).read p off' len = h.read p off' len := by
  refine read_congr (fun q hq k h1 h2 => ?_)
  rw [hq, block_write]
  rcases hd with hd | hd
  · exact writeCell_of_lt (by omega) xs
  · exact writeCell_of_le (by omega)

/-- A write over the front of an earlier one. -/
theorem read_write_write (h : Heap α) (p off : ℕ) {xs ys : List α} (hle : xs.length ≤ ys.length) :
    ((h.write (some p) off ys).write (some p) off xs).read (some p) off ys.length = xs ++ ys.drop xs.length := by
  obtain ⟨k, hk⟩ := Nat.exists_eq_add_of_le hle
  have hback : ((h.write (some p) off ys).write (some p) off xs).read (some p) (off + xs.length) k =
      (h.write (some p) off ys).read (some p) (off + xs.length) k :=
    read_write_of_disjoint _ _ (.inr (Nat.le_refl _))
  rw [hk, read_add, read_write_all, hback, read_write _ _ _ _ (Nat.le_of_eq hk.symm), List.take_of_length_le]
  rw [List.length_drop]
  omega

/-! ## The frame -/

/-- The first `n` cells of every block of `h` are in `h'`. -/
structure Keeps (h h' : Heap α) (n : ℕ) : Prop where
  next : h.next ≤ h'.next
  size : ∀ p, p < h.next → (h'.block p).size = (h.block p).size
  cell : ∀ p, p < h.next → ∀ k, k < n → (h'.block p).cell k = (h.block p).cell k

theorem Keeps.refl (h : Heap α) (n : ℕ) : Keeps h h n := ⟨Nat.le_refl _, fun _ _ => rfl, fun _ _ _ _ => rfl⟩

theorem Keeps.trans {h₁ h₂ h₃ : Heap α} {n : ℕ} (hk : Keeps h₁ h₂ n) (hk' : Keeps h₂ h₃ n) : Keeps h₁ h₃ n where
  next := Nat.le_trans hk.next hk'.next
  size := fun p hp => (hk'.size p (Nat.lt_of_lt_of_le hp hk.next)).trans (hk.size p hp)
  cell := fun p hp k hlt => (hk'.cell p (Nat.lt_of_lt_of_le hp hk.next) k hlt).trans (hk.cell p hp k hlt)

theorem Keeps.create {h h' : Heap α} {n : ℕ} (hk : Keeps h h' n) (size : ℕ) (fill : ℕ → α) :
    Keeps h (h'.create size fill) n where
  next := Nat.le_succ_of_le hk.next
  size := fun p hp => by
    rw [block_create_of_ne h' (Nat.ne_of_lt (Nat.lt_of_lt_of_le hp hk.next))]
    exact hk.size p hp
  cell := fun p hp k hlt => by
    rw [block_create_of_ne h' (Nat.ne_of_lt (Nat.lt_of_lt_of_le hp hk.next))]
    exact hk.cell p hp k hlt

/-- A write into a block that is new, or behind the cells kept. -/
theorem Keeps.write {h h' : Heap α} {n : ℕ} (hk : Keeps h h' n) {p : Option ℕ} {off : ℕ}
    (hp : (∀ q, p = some q → h.next ≤ q) ∨ n ≤ off) (xs : List α) : Keeps h (h'.write p off xs) n where
  next := by
    rw [next_write]
    exact hk.next
  size := fun q hq => by
    rw [size_write]
    exact hk.size q hq
  cell := fun q hq k hlt => by
    rw [← hk.cell q hq k hlt]
    cases p with
    | none => rfl
    | some p =>
      by_cases hqp : q = p
      · subst hqp
        rw [block_write]
        rcases hp with hp | hp
        · exact absurd (hp q rfl) (Nat.not_le_of_lt hq)
        · exact writeCell_of_lt (Nat.lt_of_lt_of_le hlt hp) xs
      · rw [block_write_of_ne h' hqp]

/-- **A reader of the cells kept reads the same.** -/
theorem Keeps.read {h h' : Heap α} {n : ℕ} (hk : Keeps h h' n) {p : Option ℕ} (hp : ∀ q, p = some q → q < h.next)
    {off len : ℕ} (hn : off + len ≤ n) : h'.read p off len = h.read p off len :=
  read_congr (fun q hq k _ hlt => hk.cell q (hp q hq) k (by omega))

/-! ## Growing -/

@[simp] theorem next_grow (h : Heap α) (size : ℕ) (fill : ℕ → α) (p : Option ℕ) (len : ℕ) :
    (h.grow size fill p len).next = h.next + 1 := by
  unfold grow
  dsimp only
  split
  · rw [next_write, next_create]
  · rw [next_create]

theorem size_grow (h : Heap α) (size : ℕ) (fill : ℕ → α) (p : Option ℕ) (len : ℕ) :
    ((h.grow size fill p len).block h.next).size = size := by
  unfold grow
  dsimp only
  split
  · rw [size_write, block_create]
  · rw [block_create]

theorem keeps_grow (h : Heap α) (size : ℕ) (fill : ℕ → α) (p : Option ℕ) (len n : ℕ) :
    Keeps h (h.grow size fill p len) n := by
  unfold grow
  dsimp only
  have hc := (Keeps.refl h n).create size fill
  split
  · refine hc.write (.inl (fun q hq => ?_)) _
    exact Nat.le_of_eq (Option.some.inj hq)
  · exact hc

/-- **The new block begins with the cells copied.** -/
theorem read_grow (h : Heap α) (size : ℕ) (fill : ℕ → α) {p : Option ℕ} {len : ℕ} (hp : ∀ q, p = some q → q < h.next)
    {xs : List α} (hxs : h.read p 0 len = xs) (hlen : xs.length = len) :
    (h.grow size fill p len).read (some h.next) 0 len = xs := by
  unfold grow
  dsimp only
  have hr : (h.create size fill).read p 0 len = xs := by
    rw [← hxs]
    exact ((Keeps.refl h len).create size fill).read hp (by omega)
  split
  · rw [hr, ← hlen]
    exact read_write_all _ _ _ _
  · rename_i h0
    obtain rfl : len = 0 := not_not.1 h0
    rw [read_zero, List.eq_nil_of_length_eq_zero hlen]

end Heap
end Lib
