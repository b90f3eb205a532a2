import Mathlib
/-!
# Terminal — what a character terminal shows

A terminal of some width and height reads bytes.  A control sequence `ESC [ p;…;p c` sets a colour (`m`), moves the cursor
(`H`) or erases the rest of a line (`K`), and `ESC [ ? 7 h` and `ESC [ ? 7 l` switch autowrap on and off.  A character that
is no control character goes to the cursor, in the colours set; it has one column, and in UTF-8 the bytes after its first
one join it.  Behind the last column a character goes to the next line, with autowrap, or into the last column again.
Other sequences and control characters do nothing.

`feed_csi` and `feed_text` say what a sequence and a text do, where the text fits into its line.
-/
namespace Lib.Terminal

inductive Color where
  | rgb (red green blue : ℕ)
  | base (code : ℕ)
  | bright (code : ℕ)
deriving DecidableEq

/-- A character on the screen; where no colour is set it has the terminal's own. -/
structure Cell where
  text : List UInt8
  fg : Option Color
  bg : Option Color
deriving DecidableEq

/-- Where the terminal is in a control sequence: whether it began with `?`, and the parameters so far, the last one first. -/
inductive Mode where
  | ground
  | escape
  | csi (priv : Bool) (params : List ℕ)
deriving DecidableEq

/-- Lines count from one and columns from zero; in the column `width` the cursor is behind the last one. -/
structure Screen where
  width : ℕ
  height : ℕ
  autowrap : Bool
  mode : Mode
  row : ℕ
  col : ℕ
  fg : Option Color
  bg : Option Color
  lines : ℕ → List Cell

namespace Screen

/-- One attribute. -/
def oneAttribute (s : Screen) (p : ℕ) : Screen :=
  if p = 0 then { s with fg := none, bg := none }
  else if 30 ≤ p ∧ p < 38 then { s with fg := some (.base (p - 30)) }
  else if p = 39 then { s with fg := none }
  else if 40 ≤ p ∧ p < 48 then { s with bg := some (.base (p - 40)) }
  else if p = 49 then { s with bg := none }
  else if 90 ≤ p ∧ p < 98 then { s with fg := some (.bright (p - 90)) }
  else if 100 ≤ p ∧ p < 108 then { s with bg := some (.bright (p - 100)) }
  else s

/-- `m`, with one attribute or one colour by its components. -/
def sgr (s : Screen) : List ℕ → Screen
  | [p] => s.oneAttribute p
  | [p, q, r, g, b] =>
    if p = 38 ∧ q = 2 then { s with fg := some (.rgb r g b) }
    else if p = 48 ∧ q = 2 then { s with bg := some (.rgb r g b) }
    else s
  | _ => s

/-- `H`: both parameters count from one. -/
def moveTo (s : Screen) (params : List ℕ) : Screen :=
  { s with row := min s.height (max 1 (params.getD 0 0)), col := min s.width (max 1 (params.getD 1 0)) - 1 }

/-- `K`, from the cursor on. -/
def eraseLine (s : Screen) (params : List ℕ) : Screen :=
  if params = [0] then
    { s with lines := Function.update s.lines s.row ((s.lines s.row).take (min s.col (s.width - 1))) }
  else s

/-- The end of a control sequence. -/
def final (s : Screen) (c : UInt8) (priv : Bool) (params : List ℕ) : Screen :=
  if priv then
    if params = [7] ∧ c = 'h'.toUInt8 then { s with autowrap := true }
    else if params = [7] ∧ c = 'l'.toUInt8 then { s with autowrap := false }
    else s
  else if c = 'm'.toUInt8 then s.sgr params
  else if c = 'H'.toUInt8 then s.moveTo params
  else if c = 'K'.toUInt8 then s.eraseLine params
  else s

/-- The cursor goes to the next line; at the last one the others move up. -/
def nextLine (s : Screen) : Screen :=
  if s.row < s.height then { s with row := s.row + 1, col := 0 }
  else { s with col := 0, lines := fun n => if n = s.height then [] else s.lines (n + 1) }

/-- A character has to have a column. -/
def wrap (s : Screen) : Screen :=
  if s.col < s.width then s else if s.autowrap then s.nextLine else { s with col := s.width - 1 }

/-- A byte as it is written. -/
def cell (s : Screen) (c : UInt8) : Cell := { text := [c], fg := s.fg, bg := s.bg }

/-- A new character. -/
def put (s : Screen) (c : UInt8) : Screen :=
  let line := s.lines s.row
  let before := line.take s.col ++ List.replicate (s.col - line.length) { text := [' '.toUInt8], fg := none, bg := none }
  { s with lines := Function.update s.lines s.row (before ++ s.cell c :: line.drop (s.col + 1)), col := s.col + 1 }

/-- A byte of the character before the cursor. -/
def join (s : Screen) (c : UInt8) : Screen :=
  let line := (s.lines s.row).modify (s.col - 1) (fun cell => { cell with text := cell.text ++ [c] })
  { s with lines := Function.update s.lines s.row line }

def kEsc : UInt8 := 0x1b

/-- A byte of a character, but its first one. -/
def Continues (c : UInt8) : Prop := 0x80 ≤ c ∧ c < 0xC0

instance (c : UInt8) : Decidable (Continues c) := inferInstanceAs (Decidable (_ ∧ _))

def byte (s : Screen) (c : UInt8) : Screen :=
  match s.mode with
  | .ground =>
    if c = kEsc then { s with mode := .escape }
    else if c < ' '.toUInt8 ∨ c = 0x7f then s
    else if Continues c then s.join c
    else s.wrap.put c
  | .escape => { s with mode := if c = '['.toUInt8 then .csi false [0] else .ground }
  | .csi priv params =>
    if '0'.toUInt8 ≤ c ∧ c ≤ '9'.toUInt8 then
      { s with mode := .csi priv ((params.headD 0 * 10 + (c - '0'.toUInt8).toNat) :: params.tail) }
    else if c = ';'.toUInt8 then { s with mode := .csi priv (0 :: params) }
    else if c = '?'.toUInt8 then { s with mode := .csi true params }
    else { s with mode := .ground }.final c priv params.reverse

def feed (s : Screen) (bs : List UInt8) : Screen := bs.foldl byte s

end Screen

/-! ## Sequences -/

def decimal (n : ℕ) : List UInt8 := (Nat.toDigits 10 n).map Char.toUInt8

/-- `ESC [ p;…;p c` -/
def csi (params : List ℕ) (c : UInt8) : List UInt8 :=
  Screen.kEsc :: '['.toUInt8 :: (List.intercalate [';'.toUInt8] (params.map decimal) ++ [c])

theorem decimal_eq (n : ℕ) :
    decimal n = (if n < 10 then [] else decimal (n / 10)) ++ [(Nat.digitChar (n % 10)).toUInt8] := by
  unfold decimal
  rw [Nat.toDigits_eq_if (by decide)]
  split
  · rename_i h
    rw [Nat.mod_eq_of_lt h]
    rfl
  · rw [List.map_append]
    rfl

theorem digit_byte : ∀ d < 10, ('0'.toUInt8 ≤ (Nat.digitChar d).toUInt8 ∧ (Nat.digitChar d).toUInt8 ≤ '9'.toUInt8) ∧
    ((Nat.digitChar d).toUInt8 - '0'.toUInt8).toNat = d := by decide

namespace Screen

variable {s : Screen}

theorem feed_nil (s : Screen) : s.feed [] = s := rfl

theorem feed_cons (s : Screen) (c : UInt8) (bs : List UInt8) : s.feed (c :: bs) = (s.byte c).feed bs := rfl

theorem feed_append (s : Screen) (as bs : List UInt8) : s.feed (as ++ bs) = (s.feed as).feed bs := List.foldl_append ..

theorem byte_digit {d p : ℕ} {pr : Bool} {ps : List ℕ} (hm : s.mode = .csi pr (p :: ps)) (hd : d < 10) :
    s.byte (Nat.digitChar d).toUInt8 = { s with mode := .csi pr ((p * 10 + d) :: ps) } := by
  obtain ⟨hdigit, hval⟩ := digit_byte d hd
  unfold byte
  simp only [hm]
  rw [if_pos hdigit, hval]
  rfl

/-- **A number** becomes the parameter. -/
theorem feed_decimal (n : ℕ) : ∀ {s : Screen} {pr : Bool} {ps : List ℕ}, s.mode = .csi pr (0 :: ps) →
    s.feed (decimal n) = { s with mode := .csi pr (n :: ps) } := by
  induction n using Nat.strong_induction_on with
  | _ n ih =>
    intro s pr ps hm
    have hmod : n % 10 < 10 := Nat.mod_lt n (by decide)
    rw [decimal_eq, feed_append]
    split
    · rename_i h
      rw [feed_nil, feed_cons, feed_nil, byte_digit hm hmod, Nat.mod_eq_of_lt h, Nat.zero_mul, Nat.zero_add]
    · rename_i h
      rw [ih (n / 10) (by omega) hm, feed_cons, feed_nil, byte_digit rfl hmod]
      have hn : n / 10 * 10 + n % 10 = n := by omega
      rw [hn]

theorem byte_semicolon {pr : Bool} {ps : List ℕ} (hm : s.mode = .csi pr ps) :
    s.byte ';'.toUInt8 = { s with mode := .csi pr (0 :: ps) } := by
  unfold byte
  simp only [hm]
  rw [if_neg (by decide)]
  exact if_pos trivial

theorem feed_params : ∀ (params : List ℕ) {s : Screen} {pr : Bool} {l : List ℕ}, params ≠ [] → s.mode = .csi pr (0 :: l) →
    s.feed (List.intercalate [';'.toUInt8] (params.map decimal)) = { s with mode := .csi pr (params.reverse ++ l) }
  | [], _, _, _, hne, _ => absurd rfl hne
  | [p], s, pr, l, _, hm => by
    rw [List.map_singleton, List.intercalate_singleton, feed_decimal p hm]
    rfl
  | p :: q :: params, s, pr, l, _, hm => by
    have hcons : List.intercalate [';'.toUInt8] ((p :: q :: params).map decimal) =
        decimal p ++ ';'.toUInt8 :: List.intercalate [';'.toUInt8] ((q :: params).map decimal) := by
      rw [List.map_cons, List.map_cons, List.intercalate_cons_cons, List.append_assoc]
      rfl
    rw [hcons, feed_append, feed_decimal p hm, feed_cons, byte_semicolon rfl,
      feed_params (q :: params) (l := p :: l) (List.cons_ne_nil _ _) rfl, List.reverse_cons (a := p), List.append_assoc]
    rfl

theorem feed_escape (hm : s.mode = .ground) (bs : List UInt8) :
    s.feed (kEsc :: '['.toUInt8 :: bs) = { s with mode := .csi false [0] }.feed bs := by
  have hesc : s.byte kEsc = { s with mode := .escape } := by
    unfold byte
    simp only [hm]
    exact if_pos trivial
  rw [feed_cons, feed_cons, hesc]
  rfl

/-- The byte ends a control sequence. -/
def Final (c : UInt8) : Prop := '9'.toUInt8 < c ∧ c ≠ ';'.toUInt8 ∧ c ≠ '?'.toUInt8

instance (c : UInt8) : Decidable (Final c) := inferInstanceAs (Decidable (_ ∧ _))

theorem byte_final {c : UInt8} {pr : Bool} {ps : List ℕ} (hc : Final c) (hm : s.mode = .csi pr ps) :
    s.byte c = { s with mode := .ground }.final c pr ps.reverse := by
  unfold byte
  simp only [hm]
  rw [if_neg (fun h => absurd h.2 (UInt8.not_le.2 hc.1)), if_neg hc.2.1, if_neg hc.2.2]

/-- **A control sequence** does what its last byte says. -/
theorem feed_csi {params : List ℕ} {c : UInt8} (hc : Final c) (hne : params ≠ []) (hm : s.mode = .ground) :
    s.feed (csi params c) = s.final c false params := by
  have hs : { s with mode := .ground } = s := by rw [← hm]
  unfold csi
  rw [feed_escape hm, feed_append, feed_params params hne rfl, feed_cons, feed_nil, byte_final hc rfl]
  change { s with mode := .ground }.final c false (params.reverse ++ []).reverse = _
  rw [hs, List.append_nil, List.reverse_reverse]

/-! ## Texts -/

/-- The cursor is at the end of its line, and the line has `n` columns more. -/
structure AtEnd (s : Screen) (n : ℕ) : Prop where
  mode : s.mode = .ground
  col : s.col = (s.lines s.row).length
  fits : s.col + n ≤ s.width

theorem AtEnd.mono {s : Screen} {m n : ℕ} (h : s.AtEnd n) (hm : m ≤ n) : s.AtEnd m :=
  ⟨h.mode, h.col, (Nat.add_le_add_left hm _).trans h.fits⟩

/-- The text is written at the end of the line. -/
def write (s : Screen) (cells : List Cell) : Screen :=
  { s with lines := Function.update s.lines s.row (s.lines s.row ++ cells), col := s.col + cells.length }

theorem AtEnd.write {n : ℕ} (cells : List Cell) (h : s.AtEnd (cells.length + n)) : (s.write cells).AtEnd n := by
  refine ⟨h.mode, ?_, ?_⟩
  · change s.col + cells.length = (Function.update s.lines s.row (s.lines s.row ++ cells) s.row).length
    rw [Function.update_self, List.length_append, h.col]
  · change s.col + cells.length + n ≤ s.width
    exact (Nat.add_assoc ..).le.trans h.fits

theorem write_nil (s : Screen) : s.write [] = s := by
  unfold Screen.write
  rw [List.append_nil, Function.update_eq_self]
  rfl

theorem write_write (s : Screen) (xs ys : List Cell) : (s.write xs).write ys = s.write (xs ++ ys) := by
  unfold Screen.write
  dsimp only
  rw [Function.update_self, Function.update_idem, List.append_assoc, List.length_append, Nat.add_assoc]

/-- The text is printable ASCII. -/
def Plain (t : List UInt8) : Prop := ∀ c ∈ t, ' '.toUInt8 ≤ c ∧ c < 0x7f

instance (t : List UInt8) : Decidable (Plain t) := inferInstanceAs (Decidable (∀ c ∈ t, _))

theorem Plain.append {t u : List UInt8} (ht : Plain t) (hu : Plain u) : Plain (t ++ u) :=
  fun c hc => (List.mem_append.1 hc).elim (ht c) (hu c)

theorem decimal_plain (n : ℕ) : Plain (decimal n) := by
  induction n using Nat.strong_induction_on with
  | _ n ih =>
    have hdigit : ∀ d < 10, Plain [(Nat.digitChar d).toUInt8] := by
      intro d hd c hc
      rw [List.mem_singleton.1 hc]
      exact ⟨UInt8.le_trans (by decide) (digit_byte d hd).1.1, UInt8.lt_of_le_of_lt (digit_byte d hd).1.2 (by decide)⟩
    rw [decimal_eq]
    split
    · exact hdigit _ (Nat.mod_lt n (by decide))
    · exact (ih (n / 10) (by omega)).append (hdigit _ (Nat.mod_lt n (by decide)))

/-- **The first byte of a character** at the end of a line. -/
theorem byte_new {c : UInt8} (h : s.AtEnd 1) (hc : ' '.toUInt8 ≤ c) (hdel : c ≠ 0x7f) (hnew : ¬ Continues c) :
    s.byte c = s.write [s.cell c] := by
  have hesc : c ≠ kEsc := by
    rintro rfl
    exact absurd hc (by decide)
  have hwrap : s.wrap = s := if_pos h.fits
  unfold byte
  simp only [h.mode]
  rw [if_neg hesc, if_neg (not_or.2 ⟨UInt8.not_lt.2 hc, hdel⟩), if_neg hnew, hwrap]
  unfold put
  dsimp only
  rw [h.col, List.take_length, Nat.sub_self, List.replicate_zero, List.append_nil, List.drop_of_length_le (Nat.le_succ _)]
  unfold Screen.write
  rw [h.col]
  rfl

theorem byte_plain {c : UInt8} (h : s.AtEnd 1) (hc : ' '.toUInt8 ≤ c ∧ c < 0x7f) : s.byte c = s.write [s.cell c] := by
  refine byte_new h hc.1 (UInt8.ne_of_lt hc.2) (fun hn => ?_)
  exact UInt8.lt_irrefl _ (UInt8.lt_trans hc.2 (UInt8.lt_of_lt_of_le (by decide) hn.1))

/-- **The other bytes of a character** join it. -/
theorem byte_joins {c : UInt8} (h : s.AtEnd 1) (hc : Continues c) (cell : Cell) :
    (s.write [cell]).byte c = s.write [{ cell with text := cell.text ++ [c] }] := by
  have hesc : c ≠ kEsc := by
    rintro rfl
    exact absurd hc.1 (by decide)
  have hsp : ¬ (c < ' '.toUInt8 ∨ c = 0x7f) := by
    rintro (hlt | rfl)
    · exact UInt8.lt_irrefl _ (UInt8.lt_of_le_of_lt hc.1 (UInt8.lt_trans hlt (by decide)))
    · exact absurd hc.1 (by decide)
  unfold byte
  simp only [Screen.write, h.mode]
  rw [if_neg hesc, if_neg hsp, if_pos hc]
  unfold join
  dsimp only
  rw [Function.update_self, Function.update_idem, h.col]
  have hmodify : ((s.lines s.row) ++ [cell]).modify ((s.lines s.row).length + [cell].length - 1)
      (fun cell => { cell with text := cell.text ++ [c] }) =
        s.lines s.row ++ [{ cell with text := cell.text ++ [c] }] := by
    rw [List.length_singleton, Nat.add_sub_cancel, List.modify_eq_take_cons_drop (by simp), List.take_left,
      List.getElem_append_right le_rfl, List.drop_of_length_le (by simp)]
    simp
  rw [hmodify]
  rfl

/-- **A text** is written in the colours set. -/
theorem feed_text : ∀ {t : List UInt8} {s : Screen}, s.AtEnd t.length → Plain t → s.feed t = s.write (t.map s.cell)
  | [], s, _, _ => (write_nil s).symm
  | c :: t, s, h, ht => by
    have htail : Plain t := fun d hd => ht d (List.mem_cons_of_mem _ hd)
    have hrest : (s.write [s.cell c]).AtEnd t.length := .write [s.cell c] (by rwa [List.length_singleton, Nat.add_comm])
    rw [feed_cons, byte_plain (h.mono (Nat.succ_pos _)) (ht c List.mem_cons_self), feed_text hrest htail, write_write]
    rfl

/-! ## Moving and colouring -/

/-- `ESC [ n ; 0 H ESC [ K` goes to a line and empties it. -/
def goto (s : Screen) (n : ℕ) : Screen := { s with row := n, col := 0, lines := Function.update s.lines n [] }

theorem goto_atEnd (hm : s.mode = .ground) (n : ℕ) {k : ℕ} (hk : k ≤ s.width) : (s.goto n).AtEnd k := by
  refine ⟨hm, ?_, ?_⟩
  · change 0 = (Function.update s.lines n [] n).length
    rw [Function.update_self]
    rfl
  · change 0 + k ≤ s.width
    rwa [Nat.zero_add]

theorem feed_goto (hm : s.mode = .ground) {n : ℕ} (hn : 0 < n) (hh : n ≤ s.height) :
    s.feed (csi [n, 0] 'H'.toUInt8 ++ [kEsc, '['.toUInt8, 'K'.toUInt8]) = s.goto n := by
  have hmove : s.moveTo [n, 0] = { s with row := n, col := 0 } := by
    unfold moveTo
    have hmax : min s.height (max 1 n) = n := by omega
    have hcol : min s.width (max 1 0) - 1 = 0 := by omega
    rw [List.getD_cons_zero, List.getD_cons_succ, List.getD_cons_zero, hmax, hcol]
  have hfinal : s.final 'H'.toUInt8 false [n, 0] = s.moveTo [n, 0] := rfl
  rw [feed_append, feed_csi (by decide) (List.cons_ne_nil _ _) hm, hfinal, hmove, feed_escape (by exact hm),
    feed_cons, feed_nil, byte_final (by decide) rfl]
  have herase : ∀ t : Screen, t.final 'K'.toUInt8 false [0] = t.eraseLine [0] := fun _ => rfl
  rw [List.reverse_singleton, herase]
  unfold goto eraseLine
  rw [if_pos rfl, ← hm]
  dsimp only
  rw [Nat.zero_min, List.take_zero]

/-- **A colour is set.** -/
theorem feed_sgr (hm : s.mode = .ground) {params : List ℕ} (hne : params ≠ []) :
    s.feed (csi params 'm'.toUInt8) = s.sgr params := by
  rw [feed_csi (by decide) hne hm]
  rfl

end Screen
end Lib.Terminal
