import Fzx.LineThrows
import Fzx.PoolVisible
import Fzx.QueryPositions
import Fzx.Tty
/-!
# TermApp — term_app.cpp, line_editor.cpp, input.cpp, key.hpp

What the terminal program does with a key, with a piece of its input and when it draws.  It sees the search through the
calls of `Fzx` that read: `fzx` is the state they read.  The calls that it makes are returned, for the main loop.
-/
namespace Fzx

open Lib.Terminal

/-! ## Keys -/

def kEnter : UInt8 := 0x0D

def kEscape : UInt8 := 0x1B

def kBackspace : UInt8 := 0x7F

def kTab : UInt8 := 0x09

def kCtrlC : UInt8 := 0x03

def kCtrlN : UInt8 := 0x0E

def kCtrlP : UInt8 := 0x10

def kCtrlU : UInt8 := 0x15

/-- `std::isprint`, in the C locale. -/
def isprint (key : UInt8) : Bool := decide (0x20 ≤ key ∧ key ≤ 0x7E)

structure LineEditor where
  mLine : Bytes := []

def LineEditor.handle (e : LineEditor) (key : UInt8) : LineEditor × Bool :=
  if isprint key then ({ mLine := e.mLine ++ [key] }, true)
  else if key = kBackspace then ({ mLine := e.mLine.dropLast }, true)
  else (e, false)

/-! ## The program -/

inductive Status where
  | running
  | exitSuccess
  | exitFailure
deriving DecidableEq

/-- The size of the terminal as it was last asked for, and what the last `flush` wrote. -/
structure TTY where
  mWidth : ℕ
  mHeight : ℕ
  flushed : Option Bytes := none

/-- `mInput` says whether the input is open, `mInputBuffer` how much of it fits into the buffer. -/
structure TermApp where
  mLineScanner : LineScanner := {}
  mInput : Bool := true
  mTTY : TTY
  mLine : LineEditor := {}
  mInputBuffer : ℕ := 1024
  mStatus : Status := .running
  mSelection : Finset UInt32 := ∅
  mCursor : ℕ := 0

namespace TermApp

def mPrompt : Bytes := ['>'.toUInt8]

def mPalette : Theme := Theme.new

def kMaxInputBufferSize : ℕ := 0x40000

def quit (t : TermApp) (success : Bool) : TermApp :=
  { t with mStatus := if success then .exitSuccess else .exitFailure }

/-! ### Input -/

/-- What a `read` gets. -/
inductive Reading where
  | chunk (str : Bytes)
  | eof
  | error

/-- What `processInput` leaves: the program, the calls that it makes, and whether it draws then. -/
structure InputOut where
  app : TermApp
  calls : List Call
  draws : Bool

/-- `Items::push` takes the item; it throws for one that is too big. -/
def fits (item : Bytes) : Bool := decide (item.length ≤ kItemSizeMask.toNat)

/-- The callback of the scanner, with the items that it has pushed. -/
def push : Throws.Push (List Bytes) Unit := Throws.recording fits

/-- What `finalize` is followed by. -/
def endInput (t : TermApp) (c : Throws.Call (List Bytes) Unit Bool) : Option InputOut :=
  match c.result with
  | .ok result => some {
      app := { t with mLineScanner := { mBuf := Throws.bytes c.mBuf }, mInput := false, mInputBuffer := 0 }
      calls := c.state.map Call.pushItem ++ if result then [.commit] else []
      draws := true }
  | .error _ => none

/-- `processInput`; `none` where its handler throws again, which ends the program. -/
def processInput (t : TermApp) : Reading → Option InputOut
  | .chunk str =>
    let c := Throws.feed push t.mLineScanner.mBuf.zipIdx [] str.zipIdx '\n'.toUInt8
    match c.result with
    | .ok count => some {
        app := { t with
          mLineScanner := { mBuf := Throws.bytes c.mBuf }
          mInputBuffer :=
            if t.mInputBuffer = str.length ∧ t.mInputBuffer < kMaxInputBufferSize then t.mInputBuffer * 2
            else t.mInputBuffer }
        calls := c.state.map Call.pushItem ++ if count > 0 then [.commit] else []
        draws := true }
    | .error _ => t.endInput (Throws.finalize push c.mBuf c.state)
  | .eof =>
    let c := Throws.finalize push t.mLineScanner.mBuf.zipIdx []
    match c.result with
    | .ok _ => t.endInput c
    | .error _ => t.endInput (Throws.finalize push c.mBuf c.state)
  | .error => some { app := t, calls := [], draws := false }

/-- The lines that a piece of the input completes. -/
def linesOf (t : TermApp) : Reading → List Bytes
  | .chunk str => (t.mLineScanner.feed str '\n'.toUInt8).pushed
  | .eof => t.mLineScanner.finalize.pushed
  | .error => []

/-- What `processInput` leaves if nothing is thrown. -/
def readInput (t : TermApp) (r : Reading) : InputOut :=
  match r with
  | .chunk str =>
    let out := t.mLineScanner.feed str '\n'.toUInt8
    { app := { t with
        mLineScanner := out.scanner
        mInputBuffer :=
          if t.mInputBuffer = str.length ∧ t.mInputBuffer < kMaxInputBufferSize then t.mInputBuffer * 2
          else t.mInputBuffer }
      calls := (t.linesOf r).map Call.pushItem ++ if out.result > 0 then [.commit] else []
      draws := true }
  | .eof =>
    let out := t.mLineScanner.finalize
    { app := { t with mLineScanner := out.scanner, mInput := false, mInputBuffer := 0 }
      calls := (t.linesOf r).map Call.pushItem ++ if out.result then [.commit] else []
      draws := true }
  | .error => { app := t, calls := [], draws := false }

theorem bytes_zipIdx (l : Bytes) : Throws.bytes l.zipIdx = l := List.zipIdx_map_fst 0 l

theorem finalize_fits {sc : LineScanner} (h : fits sc.mBuf = true) : ∃ passed,
    Throws.finalize push sc.mBuf.zipIdx [] =
      { mBuf := [], state := sc.finalize.pushed, passed, result := .ok sc.finalize.result } := by
  have hbytes := bytes_zipIdx sc.mBuf
  unfold Throws.finalize push Throws.recording LineScanner.finalize
  cases hbuf : sc.mBuf with
  | nil => exact ⟨[], rfl⟩
  | cons c l =>
    rw [hbuf] at h hbytes
    rw [hbytes]
    exact ⟨[(c :: l).zipIdx], by simp [h]⟩

/-- The handler throws again where the line is still in the buffer. -/
theorem finalize_not_fits {mBuf : List Throws.Cell} {st : List Bytes} (h : fits (Throws.bytes mBuf) = false) :
    Throws.finalize push mBuf st = { mBuf, state := st, passed := [mBuf], result := .error () } := by
  unfold Throws.finalize push Throws.recording
  cases mBuf with
  | nil => cases h
  | cons c mBuf => simp [h]

theorem endInput_error {t : TermApp} {c : Throws.Call (List Bytes) Unit Bool} {e : Unit} (h : c.result = .error e) :
    t.endInput c = none := by
  unfold endInput
  rw [h]

/-- **A line that is too big ends the program**, if it is bigger than what is read at once; else what was read is pushed. -/
theorem processInput_eq {t : TermApp} {r : Reading} (hr : ∀ str, r = .chunk str → str.length ≤ kItemSizeMask.toNat) :
    t.processInput r = if ∀ l ∈ t.linesOf r, fits l = true then some (t.readInput r) else none := by
  cases r with
  | error => exact (if_pos (fun _ hl => by cases hl)).symm
  | eof =>
    have hbytes := bytes_zipIdx t.mLineScanner.mBuf
    unfold processInput
    dsimp only
    by_cases hfits : fits t.mLineScanner.mBuf = true
    · obtain ⟨passed, hcall⟩ := finalize_fits hfits
      rw [hcall, if_pos]
      · rfl
      · intro l hl
        unfold linesOf LineScanner.finalize at hl
        dsimp only at hl
        split at hl
        · rwa [List.mem_singleton.1 hl]
        · cases hl
    · have hfits' : fits (Throws.bytes t.mLineScanner.mBuf.zipIdx) = false := by
        rw [hbytes]
        exact Bool.eq_false_iff.2 hfits
      rw [finalize_not_fits hfits', if_neg]
      · exact endInput_error (congrArg Throws.Call.result (finalize_not_fits hfits'))
      · intro h
        refine hfits (h _ ?_)
        unfold linesOf LineScanner.finalize
        cases hbuf : t.mLineScanner.mBuf with
        | nil =>
          rw [hbuf] at hfits
          exact absurd rfl hfits
        | cons c l => exact List.mem_singleton_self _
  | chunk str =>
    have hstr : str.length ≤ kItemSizeMask.toNat := hr str rfl
    unfold processInput
    dsimp only
    cases hc : (Throws.feed push t.mLineScanner.mBuf.zipIdx [] str.zipIdx '\n'.toUInt8).result with
    | ok count =>
      have hsame := Throws.feedLoop_eq hc
      have hkept : (Throws.feed push t.mLineScanner.mBuf.zipIdx [] str.zipIdx '\n'.toUInt8).state =
          (Throws.feed push t.mLineScanner.mBuf.zipIdx [] str.zipIdx '\n'.toUInt8).passed.map Throws.bytes ∧
          ∀ l ∈ (Throws.feed push t.mLineScanner.mBuf.zipIdx [] str.zipIdx '\n'.toUInt8).state, fits l = true :=
        Throws.feedLoop_recording rfl (fun _ h => by cases h) hc
      obtain ⟨hstate, hfits⟩ := hkept
      rw [List.map_nil, bytes_zipIdx, bytes_zipIdx] at hsame
      have hpushed := hstate.trans hsame.passed
      rw [hpushed] at hfits
      have hmBuf : Throws.bytes (Throws.feed push t.mLineScanner.mBuf.zipIdx [] str.zipIdx '\n'.toUInt8).mBuf =
          (t.mLineScanner.feed str '\n'.toUInt8).scanner.mBuf := hsame.mBuf
      refine Eq.trans ?_ (if_pos hfits).symm
      dsimp only
      rw [hpushed, hmBuf, Except.ok.inj (hc.symm.trans hsame.result)]
      rfl
    | error e =>
      obtain ⟨l, ⟨st, e', st', hpush⟩, hmem, hl⟩ := Throws.feedLoop_error hc
      rw [List.map_nil, bytes_zipIdx, bytes_zipIdx] at hmem
      have hfits := Throws.recording_error hpush
      refine (endInput_error (e := ()) ?_).trans (if_neg (fun h => ?_)).symm
      swap
      · rw [h _ hmem] at hfits
        cases hfits
      rcases hl with hl | hl
      · have hbuf : (Throws.feed push t.mLineScanner.mBuf.zipIdx [] str.zipIdx '\n'.toUInt8).mBuf = l := hl
        rw [hbuf, finalize_not_fits hfits]
      · -- a line that came all at once fits
        rw [List.length_zipIdx] at hl
        have hle : (Throws.bytes l).length ≤ kItemSizeMask.toNat := by
          rw [Throws.bytes_length]
          exact hl.trans hstr
        unfold fits at hfits
        rw [decide_eq_true hle] at hfits
        cases hfits

/-! ### Keys -/

/-- A key that neither edits the line nor ends the program. -/
def moveKey (fzx : Pool) (t : TermApp) (key : UInt8) : TermApp :=
  if key = kCtrlP then { t with mCursor := (t.mCursor + 1) % 2 ^ 64 }
  else if key = kCtrlN then if t.mCursor > 0 then { t with mCursor := t.mCursor - 1 } else t
  else if key = kTab then
    if t.mCursor < fzx.resultsSize then
      let index := (fzx.getResult t.mCursor).mIndex
      { t with
        mSelection := if index ∈ t.mSelection then t.mSelection.erase index else insert index t.mSelection
        mCursor := (t.mCursor + 1) % 2 ^ 64 }
    else t
  else t

/-- What the loop of `processTTY` leaves: the program, `updateQuery`, and whether a key ended it. -/
structure KeysOut where
  app : TermApp
  updateQuery : Bool
  ended : Bool

def readKeys (fzx : Pool) : List UInt8 → TermApp → Bool → KeysOut
  | [], t, updateQuery => { app := t, updateQuery, ended := false }
  | key :: keys, t, updateQuery =>
    let (mLine, handled) := t.mLine.handle key
    if handled then readKeys fzx keys { t with mLine } true
    else if key = kEnter then { app := t.quit true, updateQuery, ended := true }
    else if key = kCtrlU then readKeys fzx keys { t with mLine := {} } true
    else if key = kCtrlC ∨ key = kEscape then { app := t.quit false, updateQuery, ended := true }
    else readKeys fzx keys (moveKey fzx t key) updateQuery

/-! ### Drawing -/

/-- The loop over the bytes of an item, from index `i` on. -/
def putItem (iscursor : Bool) (positions : List Bool) : ℕ → Bool → Bytes → Bytes
  | _, _, [] => []
  | i, highlighted, c :: sub =>
    if positions.getD i false then
      (if !highlighted then TTY.setFg mPalette.mMatchFg else []) ++ c :: putItem iscursor positions (i + 1) true sub
    else
      (if highlighted then TTY.setFg (if iscursor then mPalette.mCursorFg else mPalette.mDefaultFg) else []) ++
        c :: putItem iscursor positions (i + 1) false sub

/-- `•` -/
def kSelected : Bytes := [0xE2, 0x80, 0xA2]

/-- One round of the loop of `redraw`; `none` where an assertion of `matchPositions` fails. -/
def putRow (b : Build) (fzx : Pool) (t : TermApp) (i : ℕ) : Option Bytes :=
  let maxHeight := t.mTTY.mHeight - 2
  let line := TTY.setFg mPalette.mDefaultFg ++ TTY.gotoLine (maxHeight - i)
  if i < fzx.resultsSize then
    let result := fzx.getResult i
    let iscursor := decide (t.mCursor = i)
    let item := result.mLine
    -- `matchPositions` clears the vector of the row before
    let positions :=
      match fzx.query with
      | some query => query.val.matchPositions b item []
      | none => some []
    positions.map (fun positions =>
      line ++ (if iscursor then TTY.setFg mPalette.mCursorFg ++ TTY.setBg mPalette.mCursorBg else []) ++
        [' '.toUInt8, ' '.toUInt8] ++ (if result.mIndex ∈ t.mSelection then kSelected else [' '.toUInt8]) ++
        putItem iscursor positions 0 false (item.take (t.mTTY.mWidth - 2)) ++ if iscursor then TTY.clearColor else [])
  else some line

/-- What `redraw` puts after the rows. -/
def putStatus (fzx : Pool) (t : TermApp) : Bytes :=
  TTY.setFg mPalette.mDefaultFg ++ TTY.gotoLine (t.mTTY.mHeight - 1) ++ decimal fzx.resultsSize ++ ['/'.toUInt8] ++
    decimal fzx.main.mItems.length ++ TTY.gotoLine t.mTTY.mHeight ++ TTY.setFg mPalette.mPromptFg ++
    TTY.setBg mPalette.mPromptBg ++ mPrompt ++ TTY.clearColor ++ ' '.toUInt8 :: t.mLine.mLine

/-- What `redraw` writes. -/
def frame (b : Build) (fzx : Pool) (t : TermApp) : Option Bytes :=
  ((List.range (t.mTTY.mHeight - 2)).foldlM (fun buffer i => (putRow b fzx t i).map (buffer ++ ·)) []).map
    (· ++ putStatus fzx t)

/-- `std::clamp(mCursor, 0, items - 1)` -/
def clampCursor (t : TermApp) (items : ℕ) : TermApp :=
  { t with mCursor := min t.mCursor ((items + (2 ^ 64 - 1)) % 2 ^ 64) }

def redraw (b : Build) (fzx : Pool) (t : TermApp) : Option TermApp :=
  if t.mTTY.mHeight < 4 ∨ t.mTTY.mWidth < 4 then some t
  else
    let t := t.clampCursor fzx.resultsSize
    (t.frame b fzx).map (fun bytes => { t with mTTY := { t.mTTY with flushed := some bytes } })

/-! ### The result -/

def currentItem (fzx : Pool) (t : TermApp) : Bytes :=
  if t.mCursor < fzx.resultsSize then (fzx.getResult t.mCursor).mLine else []

/-- The lines that `printSelection` prints; `none` where an item is accessed out of range. -/
def printSelection (fzx : Pool) (t : TermApp) : Option (List Bytes) :=
  (t.mSelection.sort (· ≤ ·)).mapM (fun index => fzx.main.mItems[index.toNat]?)

end TermApp
end Fzx
