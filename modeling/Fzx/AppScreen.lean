import Fzx.AppShown
/-!
# AppScreen — what the user sees

On a terminal whose lines hold what is drawn (`Fits`) a frame draws the rows from the bottom up, the first result lowest,
with the bytes that the query matched in their colour and the row under the cursor in its own (`frame_seen`).  So where the
program waits, what the terminal shows is the search (`app_screen`).  A row that is cut has one column more than the
terminal; such a row is not looked at here.
-/
namespace Fzx

open Lib Lib.Terminal

namespace TermApp

/-! ## What is to be seen -/

def rowFg (iscursor : Bool) : Option Lib.Terminal.Color :=
  (if iscursor then mPalette.mCursorFg else mPalette.mDefaultFg).shown

def rowBg (iscursor : Bool) : Option Lib.Terminal.Color := if iscursor then mPalette.mCursorBg.shown else none

/-- The byte `c` of an item, at index `i`. -/
def itemCell (iscursor : Bool) (positions : List Bool) (c : UInt8) (i : ℕ) : Cell :=
  { text := [c], fg := if positions.getD i false then mPalette.mMatchFg.shown else rowFg iscursor, bg := rowBg iscursor }

def itemCells (iscursor : Bool) (positions : List Bool) (i : ℕ) (sub : Bytes) : List Cell :=
  (sub.zipIdx i).map (fun p => itemCell iscursor positions p.1 p.2)

/-- The characters before an item: two blanks and the mark of what is selected. -/
def marker (fzx : Pool) (t : TermApp) (i : ℕ) : List Bytes :=
  [[' '.toUInt8], [' '.toUInt8], if (fzx.getResult i).mIndex ∈ t.mSelection then kSelected else [' '.toUInt8]]

/-- The bytes of result `i` that the query shown matched. -/
def matched (b : Build) (fzx : Pool) (i : ℕ) : Option (List Bool) :=
  match fzx.query with
  | some query => query.val.matchPositions b (fzx.getResult i).mLine []
  | none => some []

def rowCells (b : Build) (fzx : Pool) (t : TermApp) (i : ℕ) : List Cell :=
  if i < fzx.resultsSize then
    let iscursor := decide (t.mCursor = i)
    (marker fzx t i).map (fun text => { text, fg := rowFg iscursor, bg := rowBg iscursor }) ++
      itemCells iscursor ((matched b fzx i).getD []) 0 (fzx.getResult i).mLine
  else []

/-- A text in the terminal's own colours. -/
def plainCells (text : Bytes) : List Cell := text.map (fun c => { text := [c], fg := none, bg := none })

def statusText (fzx : Pool) : Bytes := decimal fzx.resultsSize ++ ['/'.toUInt8] ++ decimal fzx.main.mItems.length

def promptCells (t : TermApp) : List Cell :=
  mPrompt.map (fun c => { text := [c], fg := mPalette.mPromptFg.shown, bg := mPalette.mPromptBg.shown }) ++
    plainCells (' '.toUInt8 :: t.mLine.mLine)

/-- What is drawn has its columns, and the cursor one behind the line that is edited. -/
structure Fits (fzx : Pool) (t : TermApp) : Prop where
  rows : ∀ i < t.mTTY.mHeight - 2, i < fzx.resultsSize → (fzx.getResult i).mLine.length + 3 ≤ t.mTTY.mWidth
  status : (statusText fzx).length ≤ t.mTTY.mWidth
  prompt : t.mLine.mLine.length + 2 < t.mTTY.mWidth

/-! ## An item -/

theorem itemCells_cons (iscursor : Bool) (positions : List Bool) (i : ℕ) (c : UInt8) (sub : Bytes) :
    itemCells iscursor positions i (c :: sub) =
      itemCell iscursor positions c i :: itemCells iscursor positions (i + 1) sub := by
  unfold itemCells
  rw [List.zipIdx_cons, List.map_cons]

theorem matchFg_shows : mPalette.mMatchFg.Shows := by decide

theorem fg_shows (iscursor : Bool) : (if iscursor then mPalette.mCursorFg else mPalette.mDefaultFg).Shows := by
  cases iscursor <;> decide

/-- Nothing is written where the colour is set. -/
theorem keep {s : Screen} {fg : Option Lib.Terminal.Color} (h : s.fg = fg) : s.feed [] = { s with fg := fg } := by
  rw [← h]
  rfl

/-- **The bytes of an item**, in the colours of what is matched. -/
theorem feed_putItem (iscursor : Bool) (positions : List Bool) : ∀ (sub : Bytes) (i : ℕ) (highlighted : Bool) {s : Screen},
    s.AtEnd sub.length → Screen.Plain sub → s.bg = rowBg iscursor →
    s.fg = (if highlighted then mPalette.mMatchFg.shown else rowFg iscursor) →
    ∃ fg, s.feed (putItem iscursor positions i highlighted sub) =
      { s.write (itemCells iscursor positions i sub) with fg := fg }
  | [], i, highlighted, s, _, _, _, _ => ⟨s.fg, by rw [putItem, Screen.feed_nil, itemCells, List.zipIdx_nil,
      List.map_nil, Screen.write_nil]⟩
  | c :: sub, i, highlighted, s, hs, hp, hbg, hfg => by
    have hc := hp c List.mem_cons_self
    have hsub : Screen.Plain sub := fun d hd => hp d (List.mem_cons_of_mem _ hd)
    -- The byte in its colour, and then the rest.
    have hgo : ∀ (hl : Bool) (seq : Bytes) (fg : Option Lib.Terminal.Color), hl = positions.getD i false →
        fg = (itemCell iscursor positions c i).fg → s.feed seq = { s with fg := fg } →
        ∃ fg', s.feed (seq ++ c :: putItem iscursor positions (i + 1) hl sub) =
          { s.write (itemCells iscursor positions i (c :: sub)) with fg := fg' } := by
      intro hl seq fg hhl hcol hseq
      have hend : Screen.AtEnd { s with fg := fg } (sub.length + 1) := ⟨hs.mode, hs.col, hs.fits⟩
      have hrest : (Screen.write { s with fg := fg } [itemCell iscursor positions c i]).AtEnd sub.length :=
        .write [itemCell iscursor positions c i] (by rwa [List.length_singleton, Nat.add_comm])
      have hcell : Screen.cell { s with fg := fg } c = itemCell iscursor positions c i := by
        unfold Screen.cell itemCell
        rw [hbg]
        exact congrArg (fun x => Cell.mk [c] x _) hcol
      obtain ⟨fg', hrest⟩ := feed_putItem iscursor positions sub (i + 1) hl hrest hsub hbg
        (by
          change fg = _
          rw [hcol, hhl]
          unfold itemCell
          cases positions.getD i false <;> rfl)
      refine ⟨fg', ?_⟩
      rw [Screen.feed_append, hseq, Screen.feed_cons, Screen.byte_plain (hend.mono (Nat.succ_pos _)) hc, hcell, hrest,
        Screen.write_write, itemCells_cons]
      rfl
    unfold putItem
    split
    · rename_i hpos
      have hcol : (itemCell iscursor positions c i).fg = mPalette.mMatchFg.shown := if_pos hpos
      refine hgo true _ _ hpos.symm hcol.symm ?_
      cases highlighted with
      | true => exact keep hfg
      | false => exact TTY.feed_setFg hs.mode matchFg_shows
    · rename_i hpos
      have hcol : (itemCell iscursor positions c i).fg = rowFg iscursor := if_neg hpos
      refine hgo false _ _ (Bool.eq_false_iff.2 hpos).symm hcol.symm ?_
      cases highlighted with
      | true =>
        exact TTY.feed_setFg hs.mode (fg_shows iscursor)
      | false => exact keep hfg

/-! ## A line -/

/-- After a line the terminal is ready for the next one. -/
structure Drawn (s s' : Screen) (n : ℕ) (cells : List Cell) : Prop where
  size : s'.width = s.width ∧ s'.height = s.height
  mode : s'.mode = .ground
  bg : s'.bg = none
  lines : s'.lines = Function.update s.lines n cells

/-- What is written on a line that was emptied. -/
theorem lines_write (s : Screen) (n : ℕ) (fg bg : Option Lib.Terminal.Color) (cells : List Cell) :
    ({ s.goto n with fg := fg, bg := bg }.write cells).lines = Function.update s.lines n cells := by
  unfold Screen.write Screen.goto
  dsimp only
  rw [Function.update_self, Function.update_idem, List.nil_append]

variable {b : Build} {fzx : Pool} {t : TermApp} {s : Screen}

theorem feed_selected (hs : s.AtEnd 1) : s.feed kSelected = s.write [{ text := kSelected, fg := s.fg, bg := s.bg }] := by
  have hnew : s.byte 0xE2 = s.write [s.cell 0xE2] := Screen.byte_new hs (by decide) (by decide) (by decide)
  change ((s.byte 0xE2).byte 0x80).byte 0xA2 = _
  rw [hnew, Screen.byte_joins hs (by decide), Screen.byte_joins hs (by decide)]
  rfl

theorem feed_blank (hs : s.AtEnd 1) : s.feed [' '.toUInt8] = s.write [{ text := [' '.toUInt8], fg := s.fg, bg := s.bg }] :=
  Screen.byte_plain hs (by decide)

/-- **The mark** of a row has three columns. -/
theorem feed_marker (hs : s.AtEnd 3) (fzx : Pool) (t : TermApp) (i : ℕ) :
    s.feed (marker fzx t i).flatten = s.write ((marker fzx t i).map (fun text => { text, fg := s.fg, bg := s.bg })) := by
  have hsecond : ∀ cell, (s.write [cell]).AtEnd 2 := fun cell => .write [cell] hs
  have hthird : ∀ cell cell', ((s.write [cell]).write [cell']).AtEnd 1 := fun cell cell' => .write [cell'] (hsecond cell)
  have hlast : ∀ {s : Screen}, s.AtEnd 1 → ∀ text, text = kSelected ∨ text = [' '.toUInt8] →
      s.feed text = s.write [{ text, fg := s.fg, bg := s.bg }] := by
    rintro s hs text (rfl | rfl)
    · exact feed_selected hs
    · exact feed_blank hs
  unfold marker
  rw [List.flatten_cons, Screen.feed_append, feed_blank (hs.mono (by decide)), List.flatten_cons, Screen.feed_append,
    feed_blank ((hsecond _).mono (by decide)), List.flatten_cons, List.flatten_nil, List.append_nil,
    hlast (hthird _ _) _ (by split <;> simp), Screen.write_write, Screen.write_write]
  rfl

/-- The colours of the row under the cursor. -/
def cursorColors (iscursor : Bool) : Bytes :=
  if iscursor then TTY.setFg mPalette.mCursorFg ++ TTY.setBg mPalette.mCursorBg else []

theorem putRow_of_lt {i : ℕ} (hi : i < fzx.resultsSize)
    (hfits : (fzx.getResult i).mLine.length + 3 ≤ t.mTTY.mWidth) {bytes : Bytes} (h : t.putRow b fzx i = some bytes) :
    bytes = TTY.setFg mPalette.mDefaultFg ++ (TTY.gotoLine (t.mTTY.mHeight - 2 - i) ++
      (cursorColors (decide (t.mCursor = i)) ++
      ((marker fzx t i).flatten ++
      (putItem (decide (t.mCursor = i)) ((matched b fzx i).getD []) 0 false (fzx.getResult i).mLine ++
        if decide (t.mCursor = i) then TTY.clearColor else [])))) := by
  have hvisible : (fzx.getResult i).mLine.take (t.mTTY.mWidth - 2) = (fzx.getResult i).mLine :=
    List.take_of_length_le (by omega)
  unfold putRow at h
  dsimp only at h
  rw [if_pos hi] at h
  obtain ⟨positions, hp, rfl⟩ := Option.map_eq_some_iff.1 h
  have hp : matched b fzx i = some positions := hp
  rw [hp, hvisible]
  unfold marker cursorColors
  simp only [List.append_assoc, Option.getD_some, List.flatten_cons, List.flatten_nil, List.append_nil, List.cons_append,
    List.nil_append]

theorem putRow_of_not_lt {i : ℕ} (hi : ¬ i < fzx.resultsSize) {bytes : Bytes} (h : t.putRow b fzx i = some bytes) :
    bytes = TTY.setFg mPalette.mDefaultFg ++ TTY.gotoLine (t.mTTY.mHeight - 2 - i) := by
  unfold putRow at h
  dsimp only at h
  rw [if_neg hi] at h
  exact (Option.some.inj h).symm

/-- The line of a row, in the terminal's own colour. -/
theorem feed_line (hm : s.mode = .ground) {n : ℕ} (hn : 0 < n) (hh : n ≤ s.height) (bs : Bytes) :
    s.feed (TTY.setFg mPalette.mDefaultFg ++ (TTY.gotoLine n ++ bs)) = ({ s with fg := none }.goto n).feed bs := by
  have hset : s.feed (TTY.setFg mPalette.mDefaultFg) = { s with fg := none } := TTY.feed_setFg hm (fg_shows false)
  rw [Screen.feed_append, hset, Screen.feed_append, TTY.feed_gotoLine (by exact hm) hn (by exact hh)]

theorem feed_cursorColors (hm : s.mode = .ground) (hfg : s.fg = none) (hbg : s.bg = none) (iscursor : Bool) :
    s.feed (cursorColors iscursor) = { s with fg := rowFg iscursor, bg := rowBg iscursor } := by
  cases iscursor with
  | true =>
    have hset : s.feed (TTY.setFg mPalette.mCursorFg) = { s with fg := mPalette.mCursorFg.shown } :=
      TTY.feed_setFg hm (fg_shows true)
    have hbg : mPalette.mCursorBg.Shows := by decide
    change s.feed (TTY.setFg mPalette.mCursorFg ++ TTY.setBg mPalette.mCursorBg) = _
    rw [Screen.feed_append, hset, TTY.feed_setBg (by exact hm) hbg]
    rfl
  | false =>
    obtain ⟨width, height, autowrap, mode, row, col, fg, bg, lines⟩ := s
    dsimp only at hfg hbg
    subst hfg hbg
    rfl

/-- **A row of the frame.** -/
theorem feed_putRow (hm : s.mode = .ground) (hbg : s.bg = none) (hwidth : s.width = t.mTTY.mWidth)
    (hheight : s.height = t.mTTY.mHeight) {i : ℕ} (hi : i < t.mTTY.mHeight - 2)
    (hfits : i < fzx.resultsSize → (fzx.getResult i).mLine.length + 3 ≤ t.mTTY.mWidth)
    (hp : i < fzx.resultsSize → Screen.Plain (fzx.getResult i).mLine) {bytes : Bytes} (h : t.putRow b fzx i = some bytes) :
    Drawn s (s.feed bytes) (t.mTTY.mHeight - 2 - i) (rowCells b fzx t i) := by
  have hn : 0 < t.mTTY.mHeight - 2 - i := Nat.sub_pos_of_lt hi
  have hh : t.mTTY.mHeight - 2 - i ≤ s.height := by omega
  by_cases hlt : i < fzx.resultsSize
  · have hrow : rowCells b fzx t i = (marker fzx t i).map (fun text =>
        { text, fg := rowFg (decide (t.mCursor = i)), bg := rowBg (decide (t.mCursor = i)) }) ++
        itemCells (decide (t.mCursor = i)) ((matched b fzx i).getD []) 0 (fzx.getResult i).mLine := if_pos hlt
    have hcols : 3 + (fzx.getResult i).mLine.length ≤ s.width := by
      rw [hwidth, Nat.add_comm]
      exact hfits hlt
    have hplain := hp hlt
    rw [putRow_of_lt hlt (hfits hlt) h, feed_line hm hn hh, hrow]
    generalize (fzx.getResult i).mLine = item at hcols hplain
    generalize decide (t.mCursor = i) = iscursor
    generalize t.mTTY.mHeight - 2 - i = n
    have hgoto : ({ s with fg := none }.goto n).AtEnd (3 + item.length) :=
      Screen.goto_atEnd (s := { s with fg := none }) hm n hcols
    rw [Screen.feed_append, feed_cursorColors hgoto.mode rfl hbg]
    have hend : Screen.AtEnd { ({ s with fg := none }.goto n) with fg := rowFg iscursor, bg := rowBg iscursor }
        (3 + item.length) := ⟨hgoto.mode, hgoto.col, hgoto.fits⟩
    rw [Screen.feed_append, feed_marker (hend.mono (Nat.le_add_right _ _))]
    obtain ⟨fg, hitem⟩ := feed_putItem iscursor ((matched b fzx i).getD []) item 0 false
      (.write ((marker fzx t i).map (fun text => { text, fg := rowFg iscursor, bg := rowBg iscursor })) hend) hplain rfl rfl
    rw [Screen.feed_append, hitem, Screen.write_write]
    cases iscursor with
    | true =>
      rw [if_pos rfl, TTY.feed_clearColor (by exact hm)]
      exact ⟨⟨rfl, rfl⟩, hm, rfl, lines_write { s with fg := none } n _ _ _⟩
    | false => exact ⟨⟨rfl, rfl⟩, hm, rfl, lines_write { s with fg := none } n _ _ _⟩
  · have hrow : rowCells b fzx t i = [] := if_neg hlt
    rw [putRow_of_not_lt hlt h, ← List.append_nil (TTY.gotoLine _), feed_line hm hn hh, hrow]
    exact ⟨⟨rfl, rfl⟩, hm, hbg, rfl⟩

/-! ## The frame -/

/-- **The rows**, the first `k` of them. -/
theorem feed_rows (hm : s.mode = .ground) (hbg : s.bg = none) (hwidth : s.width = t.mTTY.mWidth)
    (hheight : s.height = t.mTTY.mHeight) (hfits : Fits fzx t)
    (hp : ∀ i < fzx.resultsSize, Screen.Plain (fzx.getResult i).mLine) :
    ∀ {k : ℕ}, k ≤ t.mTTY.mHeight - 2 → ∀ {bytes : Bytes},
    (List.range k).foldlM (fun buffer i => (putRow b fzx t i).map (buffer ++ ·)) [] = some bytes →
    (s.feed bytes).mode = .ground ∧ (s.feed bytes).bg = none ∧
      ((s.feed bytes).width = s.width ∧ (s.feed bytes).height = s.height) ∧
      (∀ i < k, (s.feed bytes).lines (t.mTTY.mHeight - 2 - i) = rowCells b fzx t i) ∧
      ∀ n, (n = 0 ∨ t.mTTY.mHeight - 2 < n) → (s.feed bytes).lines n = s.lines n
  | 0, _, bytes, h => by
    cases h
    exact ⟨hm, hbg, ⟨rfl, rfl⟩, fun _ hi => absurd hi (Nat.not_lt_zero _), fun _ _ => rfl⟩
  | k + 1, hk, bytes, h => by
    rw [List.range_succ, List.foldlM_append] at h
    obtain ⟨buffer, hbuffer, h⟩ := Option.bind_eq_some_iff.1 h
    rw [List.foldlM_cons] at h
    obtain ⟨_, hadd, h⟩ := Option.bind_eq_some_iff.1 h
    obtain ⟨row, hrow, hadd⟩ := Option.map_eq_some_iff.1 hadd
    obtain rfl : buffer ++ row = bytes := hadd.trans (Option.some.inj h)
    obtain ⟨hm', hbg', ⟨hw', hh'⟩, hrows, hothers⟩ :=
      feed_rows hm hbg hwidth hheight hfits hp (Nat.le_of_succ_le hk) hbuffer
    have hdrawn := feed_putRow hm' hbg' (hw'.trans hwidth) (hh'.trans hheight) (Nat.lt_of_succ_le hk)
      (hfits.rows k (Nat.lt_of_succ_le hk)) (hp k) hrow
    rw [Screen.feed_append]
    refine ⟨hdrawn.mode, hdrawn.bg, ⟨hdrawn.size.1.trans hw', hdrawn.size.2.trans hh'⟩, fun i hi => ?_, fun n hn => ?_⟩
    · rw [hdrawn.lines]
      by_cases hik : i = k
      · rw [hik, Function.update_self]
      · rw [Function.update_of_ne (by omega), hrows i (by omega)]
    · rw [hdrawn.lines, Function.update_of_ne (by omega), hothers n hn]

/-- What a frame leaves on a terminal. -/
structure Seen (b : Build) (fzx : Pool) (t : TermApp) (s s' : Screen) : Prop where
  rows : ∀ i < t.mTTY.mHeight - 2, s'.lines (t.mTTY.mHeight - 2 - i) = rowCells b fzx t i
  status : s'.lines (t.mTTY.mHeight - 1) = plainCells (statusText fzx)
  prompt : s'.lines t.mTTY.mHeight = promptCells t
  others : ∀ n, n = 0 ∨ t.mTTY.mHeight < n → s'.lines n = s.lines n
  cursor : s'.row = t.mTTY.mHeight ∧ s'.col = t.mLine.mLine.length + 2
  ready : s'.mode = .ground ∧ s'.fg = none ∧ s'.bg = none

/-- A text at the end of a line. -/
theorem feed_plain {text : Bytes} (hs : s.AtEnd text.length) (hfg : s.fg = none) (hbg : s.bg = none)
    (ht : Screen.Plain text) : s.feed text = s.write (plainCells text) := by
  have hcell : text.map s.cell = plainCells text := by
    unfold plainCells Screen.cell
    rw [hfg, hbg]
  rw [Screen.feed_text hs ht, hcell]

theorem slash_plain : Screen.Plain ['/'.toUInt8] := by decide +kernel

theorem prompt_plain : Screen.Plain mPrompt := by decide +kernel

/-- The numbers of results and items. -/
theorem feed_status (hm : s.mode = .ground) (hbg : s.bg = none) {n : ℕ} (hn : 0 < n) (hh : n ≤ s.height) {text : Bytes}
    (hw : text.length ≤ s.width) (ht : Screen.Plain text) :
    Drawn s (s.feed (TTY.setFg mPalette.mDefaultFg ++ (TTY.gotoLine n ++ text))) n (plainCells text) := by
  have hgoto : ({ s with fg := none }.goto n).AtEnd text.length :=
    Screen.goto_atEnd (s := { s with fg := none }) hm n hw
  rw [feed_line hm hn hh, feed_plain hgoto rfl hbg ht]
  exact ⟨⟨rfl, rfl⟩, hm, hbg, lines_write { s with fg := none } n none s.bg _⟩

/-- The line that is edited. -/
def promptLine (t : TermApp) : Bytes :=
  TTY.setFg mPalette.mPromptFg ++ (TTY.setBg mPalette.mPromptBg ++ (mPrompt ++
    (TTY.clearColor ++ ' '.toUInt8 :: t.mLine.mLine)))

theorem feed_promptLine (hs : s.AtEnd (t.mLine.mLine.length + 2)) (hl : Screen.Plain t.mLine.mLine) :
    s.feed (promptLine t) = { s with fg := none, bg := none }.write (promptCells t) := by
  have hfg : mPalette.mPromptFg.Shows := by decide
  have hbg : mPalette.mPromptBg.Shows := by decide
  have hline : Screen.Plain (' '.toUInt8 :: t.mLine.mLine) := by
    intro c hc
    rcases List.mem_cons.1 hc with rfl | hc
    · decide
    · exact hl c hc
  obtain ⟨p, hp⟩ : ∃ p : Screen, p = { s with fg := mPalette.mPromptFg.shown, bg := mPalette.mPromptBg.shown } := ⟨_, rfl⟩
  have hset : (s.feed (TTY.setFg mPalette.mPromptFg)).feed (TTY.setBg mPalette.mPromptBg) = p := by
    rw [TTY.feed_setFg hs.mode hfg, TTY.feed_setBg (by exact hs.mode) hbg, hp]
  have hpend : p.AtEnd (1 + (t.mLine.mLine.length + 1)) := by
    have hfits := hs.fits
    rw [hp]
    refine ⟨hs.mode, hs.col, ?_⟩
    change s.col + _ ≤ s.width
    omega
  have hwend : (p.write (mPrompt.map p.cell)).AtEnd (t.mLine.mLine.length + 1) := .write (mPrompt.map p.cell) hpend
  have hrend : Screen.AtEnd { p.write (mPrompt.map p.cell) with fg := none, bg := none }
      (' '.toUInt8 :: t.mLine.mLine).length := ⟨hwend.mode, hwend.col, hwend.fits⟩
  have hrest := feed_plain hrend rfl rfl hline
  unfold promptLine
  rw [Screen.feed_append, Screen.feed_append, hset, Screen.feed_append,
    Screen.feed_text (hpend.mono (Nat.le_add_right _ _)) prompt_plain, Screen.feed_append,
    TTY.feed_clearColor hwend.mode, hrest]
  have hcells : promptCells t = mPrompt.map p.cell ++ plainCells (' '.toUInt8 :: t.mLine.mLine) := by rw [hp]; rfl
  rw [hcells, ← Screen.write_write, hp]
  rfl

/-- **On a terminal a frame shows** the rows from the bottom up, the numbers of results and items, and the line. -/
theorem frame_seen (hm : s.mode = .ground) (hbg : s.bg = none) (hwidth : s.width = t.mTTY.mWidth)
    (hheight : s.height = t.mTTY.mHeight) (hh : 4 ≤ t.mTTY.mHeight) (hfits : Fits fzx t)
    (hp : ∀ i < fzx.resultsSize, Screen.Plain (fzx.getResult i).mLine) (hl : Screen.Plain t.mLine.mLine) {bytes : Bytes}
    (h : t.frame b fzx = some bytes) : Seen b fzx t s (s.feed bytes) := by
  obtain ⟨rows, hrows, rfl⟩ := Option.map_eq_some_iff.1 h
  obtain ⟨hm', hbg', ⟨hw', hh'⟩, hlines, hothers⟩ := feed_rows hm hbg hwidth hheight hfits hp le_rfl hrows
  have hput : putStatus fzx t = (TTY.setFg mPalette.mDefaultFg ++ (TTY.gotoLine (t.mTTY.mHeight - 1) ++
      statusText fzx)) ++ (TTY.gotoLine t.mTTY.mHeight ++ promptLine t) := by
    unfold putStatus promptLine statusText
    simp only [List.append_assoc]
  have hstatus : Screen.Plain (statusText fzx) :=
    ((Screen.decimal_plain _).append slash_plain).append (Screen.decimal_plain _)
  have hdrawn := feed_status hm' hbg' (n := t.mTTY.mHeight - 1) (by omega) (by omega)
    (hfits.status.trans (hw'.trans hwidth).ge) hstatus
  rw [Screen.feed_append, hput, Screen.feed_append, Screen.feed_append]
  generalize (s.feed rows).feed _ = u at hdrawn ⊢
  have huw : u.width = t.mTTY.mWidth := hdrawn.size.1.trans (hw'.trans hwidth)
  have huh : u.height = t.mTTY.mHeight := hdrawn.size.2.trans (hh'.trans hheight)
  rw [TTY.feed_gotoLine hdrawn.mode (by omega) huh.ge,
    feed_promptLine (Screen.goto_atEnd hdrawn.mode _ (huw ▸ hfits.prompt.le)) hl]
  have hends : ({ u.goto t.mTTY.mHeight with fg := none, bg := none }.write (promptCells t)).lines =
      Function.update u.lines t.mTTY.mHeight (promptCells t) := lines_write u t.mTTY.mHeight none none _
  refine ⟨fun i hi => ?_, ?_, ?_, fun n hn => ?_, ⟨rfl, ?_⟩, hdrawn.mode, rfl, rfl⟩
  · rw [hends, hdrawn.lines, Function.update_of_ne (by omega), Function.update_of_ne (by omega), hlines i hi]
  · rw [hends, hdrawn.lines, Function.update_of_ne (by omega), Function.update_self]
  · rw [hends, Function.update_self]
  · rw [hends, hdrawn.lines, Function.update_of_ne (by omega), Function.update_of_ne (by omega), hothers n (by omega)]
  · change 0 + (promptCells t).length = _
    unfold promptCells plainCells mPrompt
    simp only [List.length_append, List.length_map, List.length_cons, List.length_nil]
    omega

end TermApp
/-! ## Where the program waits -/

/-- A line is made of the bytes between separators. -/
theorem mem_lines {ch : UInt8} : ∀ {r line : Bytes}, line ∈ LineScanner.lines ch r → ∀ c ∈ line, c ∈ r ∧ c ≠ ch := by
  intro r
  induction hr : r.length using Nat.strong_induction_on generalizing r with
  | _ n ih =>
    intro line hline c hc
    by_cases hm : ch ∈ r
    · obtain ⟨pre, post, rfl⟩ := List.append_of_mem hm
      rw [List.length_append, List.length_cons] at hr
      rw [LineScanner.lines_append_sep] at hline
      rcases List.mem_append.1 hline with hline | hline
      · obtain ⟨hin, hne⟩ := ih pre.length (by omega) rfl hline c hc
        exact ⟨List.mem_append_left _ hin, hne⟩
      · obtain ⟨hin, hne⟩ := ih post.length (by omega) rfl hline c hc
        exact ⟨List.mem_append_right _ (List.mem_cons_of_mem _ hin), hne⟩
    · rw [LineScanner.lines_of_not_mem hm] at hline
      split at hline
      · cases hline
      · obtain rfl := List.mem_singleton.1 hline
        exact ⟨hc, fun he => hm (he ▸ hc)⟩

theorem getResult_mLine (p : Pool) (i : ℕ) : (p.getResult i).mLine ∈ p.main.mItems ∨ (p.getResult i).mLine = [] := by
  have hgetD : ∀ k, p.main.mItems.getD k [] ∈ p.main.mItems ∨ p.main.mItems.getD k [] = [] := by
    intro k
    rw [List.getD_eq_getElem?_getD]
    cases hk : p.main.mItems[k]? with
    | none => exact .inr rfl
    | some str => exact .inl (List.mem_of_getElem? hk)
  unfold Pool.getResult
  split
  · split
    · exact hgetD _
    · exact .inr rfl
  · split
    · rename_i str hstr
      exact .inl (List.mem_of_getElem? hstr)
    · exact .inr rfl

/-- Printable ASCII and ends of lines were read. -/
def Printed (read : Bytes) : Prop := ∀ c ∈ read, c = '\n'.toUInt8 ∨ isprint c = true

instance (read : Bytes) : Decidable (Printed read) := inferInstanceAs (Decidable (∀ c ∈ read, _))

theorem plain_of_isprint {c : UInt8} (h : isprint c = true) : ' '.toUInt8 ≤ c ∧ c < 0x7f := by
  obtain ⟨hle, hge⟩ : 0x20 ≤ c ∧ c ≤ 0x7E := of_decide_eq_true h
  exact ⟨hle, UInt8.lt_of_le_of_lt hge (by decide)⟩

namespace App.Settled

variable {b : Build} {s : App}

/-- The items are made of the bytes read. -/
theorem mem_read (h : s.Settled b) {line : Bytes} (hl : line ∈ s.fzx.main.mItems) {c : UInt8} (hc : c ∈ line) :
    c ∈ s.read ∧ c ≠ '\n'.toUInt8 := by
  have hitems := h.items
  split at hitems
  · rcases hitems.carry with ⟨-, he⟩ | ⟨pre, hr, he⟩
    · rw [he] at hl
      cases hl
    · rw [he] at hl
      obtain ⟨hin, hne⟩ := mem_lines hl c hc
      exact ⟨hr ▸ List.mem_append_left _ hin, hne⟩
  · rw [hitems] at hl
    exact mem_lines hl c hc

theorem item_plain (h : s.Settled b) (hread : Printed s.read) (i : ℕ) : Screen.Plain (s.fzx.getResult i).mLine := by
  intro c hc
  rcases getResult_mLine s.fzx i with hl | hl
  · obtain ⟨hin, hne⟩ := h.mem_read hl hc
    exact plain_of_isprint ((hread c hin).resolve_left hne)
  · rw [hl] at hc
    cases hc

end App.Settled

/-- **Where the program waits the terminal shows the search**: in every state of every run where nothing is left to do, if
printable ASCII was read and what is drawn fits, what was written last leaves on every terminal of the size there is, with
autowrap or without, the sorted matches of the line among the lines read, from the bottom up, with what is matched in its
colour and the cursor's row in its own, then the numbers of results and items, and the line. -/
theorem app_screen (b : Build) (hardwareConcurrency : ℕ) (winsize : ℕ × ℕ) (as : List App.Action) (s : App)
    (hrun : run (App.step b) (App.init hardwareConcurrency winsize) as = some s) (hw : s.Waits)
    (hn : s.fzx.main.mItems.length < 2 ^ 32) (hread : Printed s.read) (hheight : 4 ≤ s.winsize.2)
    (hwidth : 4 ≤ s.winsize.1) (hfits : TermApp.Fits s.fzx s.app) (hdrawn : ¬ Untouched s.app s.read) :
    UpToDate b s.fzx ∧ Searches s.fzx.main s.app.mLine.mLine ∧ ∃ bytes, s.app.mTTY.flushed = some bytes ∧
      ∀ screen : Screen, screen.width = s.winsize.1 → screen.height = s.winsize.2 → screen.mode = .ground →
        screen.bg = none → s.app.Seen b s.fzx screen (screen.feed bytes) := by
  have h := run_appRuns hrun ⟨hw.printed, hw.aborted⟩
  have hset := h.settled hw hn
  obtain ⟨hwsize, hhsize⟩ := hset.size
  have hh : 4 ≤ s.app.mTTY.mHeight := hhsize ▸ hheight
  obtain ⟨⟨bytes, hframe, hflushed⟩, -⟩ := hset.shown.resolve_left hdrawn hh (hwsize ▸ hwidth)
  have hline : Screen.Plain s.app.mLine.mLine := fun c hc => plain_of_isprint (h.ok.tasks.line c hc)
  exact ⟨hset.upToDate, hset.query, bytes, hflushed, fun screen hsw hsh hm hbg =>
    TermApp.frame_seen hm hbg (hsw.trans hwsize.symm) (hsh.trans hhsize.symm) hh hfits
      (fun i _ => hset.item_plain hread i) hline hframe⟩

namespace App

theorem sample_resultsSize : sample.fzx.resultsSize = 1 := by decide +kernel

theorem sample_fits : TermApp.Fits sample.fzx sample.app := by
  refine ⟨fun i _ hi => ?_, by decide +kernel, by decide +kernel⟩
  rw [sample_resultsSize] at hi
  obtain rfl : i = 0 := by omega
  decide +kernel

end App

theorem app_screen_sample : ∃ bytes, App.sample.app.mTTY.flushed = some bytes ∧
    ∀ screen : Screen, screen.width = 10 → screen.height = 6 → screen.mode = .ground → screen.bg = none →
      App.sample.app.Seen .scalar App.sample.fzx screen (screen.feed bytes) := by
  have hwinsize : App.sample.winsize = (10, 6) := by decide +kernel
  obtain ⟨-, -, bytes, hflushed, hseen⟩ := app_screen .scalar 2 (10, 6) _ App.sample App.sample_run App.sample_waits
    App.sample_items (by decide +kernel) (by rw [hwinsize]; decide) (by rw [hwinsize]; decide) App.sample_fits
    (fun h => absurd h.flushed (by decide +kernel))
  rw [hwinsize] at hseen
  exact ⟨bytes, hflushed, hseen⟩

end Fzx
