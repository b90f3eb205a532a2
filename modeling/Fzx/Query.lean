import Fzx.Match
import Fzx.ScoreSimd
/-!
# Query — query.cpp

The query language and its evaluation: `Query.parse` splits a string into items, `Query.match` filters and
`Query.score` ranks.  `Build` says which of the vector instruction sets the program is compiled with; the texts of a
query are `AlignedString`s, which the vector code pads on loading.
-/
namespace Fzx

open Lib

inductive MatchType where
  | kFuzzy
  | kSubstr
  | kBegin
  | kEnd
  | kExact
deriving DecidableEq, Repr

structure Query.Item where
  mType : MatchType
  mNot : Bool
  mText : Bytes
deriving DecidableEq, Repr

structure Query where
  mItems : List Query.Item := []
deriving DecidableEq, Repr

namespace Query

def empty (q : Query) : Bool := q.mItems.isEmpty

def add (q : Query) (text : Bytes) (type : MatchType) (negated : Bool) : Query :=
  { mItems := q.mItems ++ [{ mType := type, mNot := negated, mText := text }] }

/-! ## parse -/

def kSeparator : UInt8 := ' '.toUInt8

/-- The part of `parseSubstr` after the negation. -/
def parseSigils (q : Query) (ss : Bytes) (negated : Bool) : Query :=
  let sub := ss.head? = some '\''.toUInt8
  let begin := ss.head? = some '^'.toUInt8
  let end' := ss.getLast? = some '$'.toUInt8
  if sub then
    if ss.length > 1 then q.add ((ss.drop 1).take (ss.length - 1)) .kSubstr negated else q
  else if begin ∧ end' then
    if ss.length > 2 then q.add ((ss.drop 1).take (ss.length - 2)) .kExact negated else q
  else if begin then
    if ss.length > 1 then q.add ((ss.drop 1).take (ss.length - 1)) .kBegin negated else q
  else if end' then
    if ss.length > 1 then q.add (ss.take (ss.length - 1)) .kEnd negated else q
  else q.add ss .kFuzzy negated

def parseSubstr (q : Query) (ss : Bytes) : Query :=
  let negated := decide (ss.head? = some '!'.toUInt8)
  if negated then
    let ss := ss.drop 1
    if ss.isEmpty then q else q.parseSigils ss negated
  else q.parseSigils ss negated

/-- What the loop of `parse` carries: the query so far and where the current term starts. -/
structure ParseState where
  q : Query
  pos : Option ℕ

def parseByte (s : Bytes) (i : ℕ) (st : ParseState) : ParseState :=
  match st.pos with
  | none => if s.getD i 0 ≠ kSeparator then { st with pos := some i } else st
  | some pos =>
    if s.getD i 0 = kSeparator then { q := st.q.parseSubstr ((s.drop pos).take (i - pos)), pos := none } else st

def parse (s : Bytes) : Query :=
  if s.isEmpty then {}
  else
    let st := forRange s.length (parseByte s) { q := {}, pos := none }
    match st.pos with
    | some pos => st.q.parseSubstr (s.drop pos)
    | none => st.q

/-! ## match -/

def Item.matches (b : Build) (item : Item) (s : Bytes) : Bool :=
  match item.mType with
  | .kFuzzy => matchFuzzy b item.mText s
  | .kSubstr => matchSubstr item.mText s
  | .kBegin => matchBegin item.mText s
  | .kEnd => matchEnd item.mText s
  | .kExact => matchExact item.mText s

def «match» (b : Build) (q : Query) (s : Bytes) : Bool :=
  q.mItems.all (fun item => !(!item.matches b s ^^ item.mNot))

/-! ## score -/

/-- The scorer of a text longer than one byte with at most `N.val`, which the scalar build does not have. -/
def scoreN (b : Build) (N : KernelSize) (needle haystack : Bytes) : Score :=
  match b with
  | .scalar => Fzx.score needle haystack
  | .sse2 => scoreSSE N needle haystack
  | .neon => scoreNeon N needle haystack

def Item.score (b : Build) (item : Item) (s : Bytes) : Score :=
  match item.mText.length with
  | 1 => score1 item.mText s
  | 2 | 3 | 4 => scoreN b .n4 item.mText s
  | 5 | 6 | 7 | 8 => scoreN b .n8 item.mText s
  | 9 | 10 | 11 | 12 => scoreN b .n12 item.mText s
  | 13 | 14 | 15 | 16 => scoreN b .n16 item.mText s
  | _ => Fzx.score item.mText s

/-- One round of the loop of `score`. -/
def scoreStep (b : Build) (s : Bytes) (acc : Score × ℕ) (item : Item) : Score × ℕ :=
  if item.mNot then acc
  else match item.mType with
    | .kFuzzy => (acc.1 + item.score b s, acc.2 + 1)
    | .kSubstr | .kBegin | .kEnd | .kExact => acc

def score (b : Build) (q : Query) (s : Bytes) : Flt ℚ :=
  let (sum, div) := q.mItems.foldl (scoreStep b s) (.fin 0, 0)
  if div = 0 then .fin 0 else sum.divNat div

end Query
end Fzx
