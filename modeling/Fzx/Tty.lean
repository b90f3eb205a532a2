import Fzx.Bytes
import Fzx.Lib.Terminal
/-!
# Tty — color.hpp, tty.cpp

The colours of the program and the control sequences that set them.  `TTY::put` appends to a buffer, so that what a
function puts is its value here; a `csi` is the sequence of the format string with its numbers.

On a terminal the sequences set the colours they are for (`feed_setFg`, `feed_setBg`).
-/
namespace Fzx

open Lib.Terminal

/-! ## Colours -/

def parseNibble (c : UInt8) : Option UInt8 :=
  if c ≥ '0'.toUInt8 ∧ c ≤ '9'.toUInt8 then some (c - '0'.toUInt8)
  else if c ≥ 'a'.toUInt8 ∧ c ≤ 'f'.toUInt8 then some (c - 'a'.toUInt8 + 0xa)
  else none

def parseByte : Bytes → Option UInt8
  | [high, low] => (parseNibble high).bind (fun high => (parseNibble low).map (fun low => high * 16 + low))
  | _ => none

inductive TermColorCode where
  | black
  | red
  | green
  | yellow
  | blue
  | purple
  | cyan
  | white
  | default
deriving DecidableEq

def TermColorCode.value : TermColorCode → ℕ
  | black => 0
  | red => 1
  | green => 2
  | yellow => 3
  | blue => 4
  | purple => 5
  | cyan => 6
  | white => 7
  | default => 9

inductive Color where
  | trueColor (mRed mGreen mBlue : UInt8)
  | termColor (mCode : TermColorCode) (mBright : Bool)
deriving DecidableEq

/-- `TrueColor(hexString)`; `none` where an assertion fails. -/
def Color.ofHex (hexString : Bytes) : Option Color :=
  if hexString.length = 7 ∧ hexString.head? = some '#'.toUInt8 then
    (parseByte ((hexString.drop 1).take 2)).bind (fun red =>
      (parseByte ((hexString.drop 3).take 2)).bind (fun green =>
        (parseByte ((hexString.drop 5).take 2)).map (fun blue => .trueColor red green blue)))
  else none

structure Theme where
  mDefaultFg : Color
  mPromptFg : Color
  mPromptBg : Color
  mMatchFg : Color
  mCursorFg : Color
  mCursorBg : Color

/-- The colour of a literal. -/
def Color.hex (hexString : List Char) (h : (Color.ofHex (hexString.map Char.toUInt8)).isSome = true) : Color :=
  (Color.ofHex (hexString.map Char.toUInt8)).get h

def Theme.new : Theme :=
  { mDefaultFg := .termColor .default false
    mPromptFg := .hex ['#', 'b', '6', 'a', '0', 'f', 'f'] (by decide)
    mPromptBg := .hex ['#', '2', 'f', '0', 'c', '3', 'f'] (by decide)
    mMatchFg := .hex ['#', '0', '0', 'b', 'c', 'f', 'f'] (by decide)
    mCursorFg := .hex ['#', 'f', 'f', 'f', 'f', 'f', 'f'] (by decide)
    mCursorBg := .hex ['#', '2', 'f', '4', '4', '7', 'f'] (by decide) }

/-! ## What is put -/

namespace TTY

def setFg : Color → Bytes
  | .trueColor mRed mGreen mBlue => csi [38, 2, mRed.toNat, mGreen.toNat, mBlue.toNat] 'm'.toUInt8
  | .termColor mCode mBright => csi [(if mBright then 90 else 30) + mCode.value] 'm'.toUInt8

def setBg : Color → Bytes
  | .trueColor mRed mGreen mBlue => csi [48, 2, mRed.toNat, mGreen.toNat, mBlue.toNat] 'm'.toUInt8
  | .termColor mCode mBright => csi [(if mBright then 100 else 40) + mCode.value] 'm'.toUInt8

def clearColor : Bytes := csi [0] 'm'.toUInt8

/-- The line `n`, emptied. -/
def gotoLine (n : ℕ) : Bytes := csi [n, 0] 'H'.toUInt8 ++ [Screen.kEsc, '['.toUInt8, 'K'.toUInt8]

end TTY

/-! ## On the terminal -/

/-- The colour a terminal shows; the default colour is its own. -/
def Color.shown : Color → Option Lib.Terminal.Color
  | .trueColor mRed mGreen mBlue => some (.rgb mRed.toNat mGreen.toNat mBlue.toNat)
  | .termColor .default _ => none
  | .termColor mCode mBright => some (if mBright then .bright mCode.value else .base mCode.value)

/-- There is no bright default. -/
def Color.Shows (c : Color) : Prop := c ≠ .termColor .default true

instance (c : Color) : Decidable c.Shows := inferInstanceAs (Decidable (_ ≠ _))

namespace TTY

variable {s : Screen}

/-- **A colour of the text.** -/
theorem feed_setFg (hm : s.mode = .ground) {c : Color} (hc : c.Shows) : s.feed (setFg c) = { s with fg := c.shown } := by
  cases c with
  | trueColor r g b => exact Screen.feed_sgr hm (List.cons_ne_nil _ _)
  | termColor code bright =>
    unfold setFg
    rw [Screen.feed_sgr hm (List.cons_ne_nil _ _)]
    cases code <;> cases bright <;> first | rfl | exact absurd rfl hc

/-- **A colour of the background.** -/
theorem feed_setBg (hm : s.mode = .ground) {c : Color} (hc : c.Shows) : s.feed (setBg c) = { s with bg := c.shown } := by
  cases c with
  | trueColor r g b => exact Screen.feed_sgr hm (List.cons_ne_nil _ _)
  | termColor code bright =>
    unfold setBg
    rw [Screen.feed_sgr hm (List.cons_ne_nil _ _)]
    cases code <;> cases bright <;> first | rfl | exact absurd rfl hc

theorem feed_clearColor (hm : s.mode = .ground) : s.feed clearColor = { s with fg := none, bg := none } :=
  Screen.feed_sgr hm (List.cons_ne_nil _ _)

theorem feed_gotoLine (hm : s.mode = .ground) {n : ℕ} (hn : 0 < n) (hh : n ≤ s.height) : s.feed (gotoLine n) = s.goto n :=
  Screen.feed_goto hm hn hh

end TTY
end Fzx
