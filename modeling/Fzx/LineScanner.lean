import Fzx.Bytes
/-!
# LineScanner — line_scanner.hpp

The scanner cuts a stream that arrives in chunks into lines.  What it has read of an unfinished line is its buffer;
`Scanned` says how the buffer and the lines pushed so far make up everything fed (`feedAll_scanned`), so how the stream
was cut does not matter (`feed_chunks`).
-/
namespace Fzx

structure LineScanner where
  mBuf : Bytes := []

namespace LineScanner

/-- What a call leaves: the scanner, the lines passed to `push`, and the result. -/
structure Out (α : Type) where
  scanner : LineScanner
  pushed : List Bytes
  result : α

theorem length_drop_lt {it : Bytes} {n : ℕ} (h : it ≠ []) : (it.drop (n + 1)).length < it.length := by
  have := List.length_pos_iff.2 h
  rw [List.length_drop]
  omega

/-- The loop of `feed`, standing at `it`. -/
def feedLoop (ch : UInt8) (mBuf it : Bytes) (pushed : List Bytes) (count : UInt32) : Out UInt32 :=
  let line := it.takeWhile (· ≠ ch)
  let len := line.length
  if _h : len = it.length then
    { scanner := { mBuf := if len ≠ 0 then mBuf ++ line else mBuf }, pushed, result := count }
  else if len = 0 then
    if ¬ mBuf.isEmpty then feedLoop ch [] (it.drop (len + 1)) (pushed ++ [mBuf]) (count + 1)
    else feedLoop ch mBuf (it.drop (len + 1)) pushed count
  else if mBuf.isEmpty then feedLoop ch mBuf (it.drop (len + 1)) (pushed ++ [line]) (count + 1)
  else feedLoop ch [] (it.drop (len + 1)) (pushed ++ [mBuf ++ line]) (count + 1)
termination_by it.length
decreasing_by all_goals exact length_drop_lt (fun he => _h (by simp [len, line, he]))

/-- What was pushed before comes first. -/
theorem feedLoop_pushed_prefix (ch : UInt8) (mBuf it : Bytes) (pushed : List Bytes) (count : UInt32) :
    pushed <+: (feedLoop ch mBuf it pushed count).pushed := by
  fun_induction feedLoop ch mBuf it pushed count with
  | case1 => exact List.prefix_refl _
  | case3 mBuf it pushed count line len hlen h0 hne ih => exact ih
  | _ =>
    rename_i ih
    exact (List.prefix_append _ _).trans ih

def feed (sc : LineScanner) (str : Bytes) (ch : UInt8) : Out UInt32 := feedLoop ch sc.mBuf str [] 0

def finalize (sc : LineScanner) : Out Bool :=
  let empty := sc.mBuf.isEmpty
  { scanner := { mBuf := [] }, pushed := if ¬ empty then [sc.mBuf] else [], result := !empty }

/-- The calls of `feed` for a sequence of chunks: the scanner after the last and what each call left. -/
def feedAll (ch : UInt8) (sc : LineScanner) : List Bytes → LineScanner × List (Out UInt32)
  | [] => (sc, [])
  | str :: chunks =>
    let out := sc.feed str ch
    let (sc, outs) := feedAll ch out.scanner chunks
    (sc, out :: outs)

/-! ## Lines -/

/-- The non-empty pieces of a string between separators. -/
def lines (ch : UInt8) (s : Bytes) : List Bytes := (s.splitOn ch).filter (· ≠ [])

theorem lines_of_not_mem {ch : UInt8} {s : Bytes} (h : ch ∉ s) : lines ch s = if s = [] then [] else [s] := by
  rw [lines, List.splitOn_eq_singleton h]
  by_cases hs : s = [] <;> simp [hs]

theorem lines_append_sep (ch : UInt8) (s t : Bytes) : lines ch (s ++ ch :: t) = lines ch s ++ lines ch t := by
  rw [lines, List.splitOn_append_cons_self, List.filter_append, lines, lines]

/-- **After `s` was fed**: the buffer is what follows the last separator, and the lines before it were pushed. -/
structure Scanned (ch : UInt8) (s mBuf : Bytes) (pushed : List Bytes) : Prop where
  no_sep : ch ∉ mBuf
  carry : (s = mBuf ∧ pushed = []) ∨ ∃ pre, s = pre ++ ch :: mBuf ∧ pushed = lines ch pre

namespace Scanned

variable {ch : UInt8} {s mBuf : Bytes} {pushed : List Bytes}

theorem append (h : Scanned ch s mBuf pushed) {t : Bytes} (ht : ch ∉ t) : Scanned ch (s ++ t) (mBuf ++ t) pushed := by
  refine ⟨by simp [h.no_sep, ht], ?_⟩
  rcases h.carry with ⟨rfl, hp⟩ | ⟨pre, rfl, hp⟩
  · exact .inl ⟨rfl, hp⟩
  · exact .inr ⟨pre, by simp, hp⟩

theorem lines_eq (h : Scanned ch s mBuf pushed) : lines ch s = pushed ++ if mBuf = [] then [] else [mBuf] := by
  rw [← lines_of_not_mem h.no_sep]
  rcases h.carry with ⟨rfl, rfl⟩ | ⟨pre, rfl, rfl⟩
  · rfl
  · exact lines_append_sep ch pre mBuf

theorem sep (h : Scanned ch s mBuf pushed) :
    Scanned ch (s ++ [ch]) [] (pushed ++ if mBuf = [] then [] else [mBuf]) :=
  ⟨List.not_mem_nil, .inr ⟨s, rfl, h.lines_eq.symm⟩⟩

theorem blank (h : Scanned ch s [] pushed) : Scanned ch (s ++ [ch]) [] pushed := by
  have := h.sep
  rwa [if_pos rfl, List.append_nil] at this

theorem line {before : List Bytes} (h : Scanned ch s mBuf (before ++ pushed)) {t : Bytes} (ht : ch ∉ t)
    (hne : mBuf ++ t ≠ []) : Scanned ch (s ++ t ++ [ch]) [] (before ++ (pushed ++ [mBuf ++ t])) := by
  have := (h.append ht).sep
  rwa [if_neg hne, List.append_assoc before] at this

/-- **The buffer is empty** where the string ends in a separator or is empty. -/
theorem ne_nil_iff (h : Scanned ch s mBuf pushed) : mBuf ≠ [] ↔ s ≠ [] ∧ s.getLast? ≠ some ch := by
  rcases h.carry with ⟨rfl, -⟩ | ⟨pre, rfl, -⟩
  · exact ⟨fun hne => ⟨hne, fun hl => h.no_sep (List.mem_of_getLast? hl)⟩, fun h => h.1⟩
  · have hlast : (pre ++ ch :: mBuf).getLast? = some ch ↔ mBuf = [] := by
      rw [List.getLast?_append_cons]
      cases mBuf with
      | nil => simp
      | cons c mBuf =>
        rw [List.getLast?_cons_cons]
        exact ⟨fun hl => absurd (List.mem_of_getLast? hl) h.no_sep, fun h => by cases h⟩
    rw [Ne, Ne, Ne, hlast]
    simp

end Scanned

/-! ## feed -/

theorem eq_takeWhile_append {ch : UInt8} {it : Bytes} (h : (it.takeWhile (· ≠ ch)).length ≠ it.length) :
    it = it.takeWhile (· ≠ ch) ++ ch :: it.drop ((it.takeWhile (· ≠ ch)).length + 1) := by
  induction it with
  | nil => exact absurd rfl h
  | cons c it ih =>
    by_cases hc : c = ch
    · simp [hc]
    · have hw : (c :: it).takeWhile (· ≠ ch) = c :: it.takeWhile (· ≠ ch) := List.takeWhile_cons_of_pos (by simpa using hc)
      rw [hw, List.length_cons, List.length_cons] at h
      rw [hw, List.length_cons, List.drop_succ_cons, List.cons_append, ← ih (fun he => h (by rw [he]))]

theorem not_mem_takeWhile (ch : UInt8) (it : Bytes) : ch ∉ it.takeWhile (· ≠ ch) :=
  fun h => by simpa using List.mem_takeWhile_imp h

/-- What the rest of a call does after `s`: it pushes the lines that it completes and counts them. -/
structure Fed (ch : UInt8) (before pushed : List Bytes) (count : UInt32) (s it : Bytes) (out : Out UInt32) : Prop where
  scanned : Scanned ch (s ++ it) out.scanner.mBuf (before ++ out.pushed)
  counted : ∃ ls, out.pushed = pushed ++ ls ∧ out.result = count + UInt32.ofNat ls.length

theorem Fed.round {ch : UInt8} {before pushed : List Bytes} {count : UInt32} {s it : Bytes} {out : Out UInt32}
    (hne : (it.takeWhile (· ≠ ch)).length ≠ it.length) (ls : List Bytes)
    (h : Fed ch before (pushed ++ ls) (count + UInt32.ofNat ls.length) (s ++ it.takeWhile (· ≠ ch) ++ [ch])
      (it.drop ((it.takeWhile (· ≠ ch)).length + 1)) out) : Fed ch before pushed count s it out := by
  obtain ⟨hs, ls', hp, hc⟩ := h
  refine ⟨?_, ls ++ ls', by rw [hp, List.append_assoc], ?_⟩
  · have hcat : s ++ it.takeWhile (· ≠ ch) ++ [ch] ++ it.drop ((it.takeWhile (· ≠ ch)).length + 1) = s ++ it := by
      rw [List.append_assoc, List.append_assoc, List.singleton_append, ← eq_takeWhile_append hne]
    rwa [hcat] at hs
  · rw [hc, List.length_append, UInt32.ofNat_add, UInt32.add_assoc]

/-- **What the loop of `feed` does**, from every state of the scanner. -/
theorem feedLoop_fed (ch : UInt8) (before : List Bytes) (mBuf it : Bytes) (pushed : List Bytes) (count : UInt32) {s : Bytes}
    (h : Scanned ch s mBuf (before ++ pushed)) : Fed ch before pushed count s it (feedLoop ch mBuf it pushed count) := by
  fun_induction feedLoop ch mBuf it pushed count generalizing s with
  | case1 mBuf it pushed count line len =>
    rename_i hlen
    have hline : line = it := (List.takeWhile_sublist _).eq_of_length hlen
    have hbuf : (if len ≠ 0 then mBuf ++ line else mBuf) = mBuf ++ it := by
      split
      · rw [hline]
      · rename_i h0
        have hnil : line = [] := List.length_eq_zero_iff.1 (not_not.1 h0)
        rw [← hline, hnil, List.append_nil]
    refine ⟨?_, [], (List.append_nil _).symm, by simp⟩
    dsimp only
    rw [hbuf]
    exact h.append (hline ▸ not_mem_takeWhile ch it)
  | case2 mBuf it pushed count line len =>
    rename_i hlen h0 hbuf ih
    have hline : it.takeWhile (· ≠ ch) = [] := List.length_eq_zero_iff.1 h0
    have hround := h.line (not_mem_takeWhile ch it) (by rw [hline, List.append_nil]; simpa using hbuf)
    rw [hline, List.append_nil mBuf] at hround
    refine .round hlen [mBuf] (ih ?_)
    rwa [hline]
  | case3 mBuf it pushed count line len =>
    rename_i hlen h0 hbuf ih
    have hline : it.takeWhile (· ≠ ch) = [] := List.length_eq_zero_iff.1 h0
    obtain rfl : mBuf = [] := by simpa using hbuf
    refine .round hlen [] ?_
    have hround := ih h.blank
    rw [show len = ([] : Bytes).length from h0] at hround ⊢
    rw [hline, List.append_nil, List.append_nil]
    simpa using hround
  | case4 mBuf it pushed count line len =>
    rename_i hlen h0 hbuf ih
    obtain rfl : mBuf = [] := List.isEmpty_iff.1 hbuf
    have hround := h.line (not_mem_takeWhile ch it) (fun he => h0 (List.length_eq_zero_iff.2 he))
    exact .round hlen [line] (ih hround)
  | case5 mBuf it pushed count line len =>
    rename_i hlen h0 hbuf ih
    have hround := h.line (not_mem_takeWhile ch it)
      (fun he => h0 (List.length_eq_zero_iff.2 (List.append_eq_nil_iff.1 he).2))
    exact .round hlen [mBuf ++ line] (ih hround)

/-! ## All calls -/

/-- The lines that a sequence of calls passed to `push`, in order. -/
def pushedBy (outs : List (Out UInt32)) : List Bytes := outs.flatMap (·.pushed)

theorem feedAll_scanned (ch : UInt8) : ∀ (chunks : List Bytes) (sc : LineScanner) {s : Bytes} {before : List Bytes},
    Scanned ch s sc.mBuf before →
    Scanned ch (s ++ chunks.flatten) (feedAll ch sc chunks).1.mBuf (before ++ pushedBy (feedAll ch sc chunks).2)
  | [], sc, s, before, h => by
    rw [List.flatten_nil, List.append_nil, feedAll, pushedBy, List.flatMap_nil, List.append_nil]
    exact h
  | str :: chunks, sc, s, before, h => by
    have hfeed := (feedLoop_fed ch before sc.mBuf str [] 0 (s := s) (by rwa [List.append_nil])).scanned
    have ih := feedAll_scanned ch chunks (sc.feed str ch).scanner hfeed
    rw [List.append_assoc, List.append_assoc] at ih
    rw [List.flatten_cons, feedAll, pushedBy, List.flatMap_cons]
    exact ih

theorem feedAll_counted (ch : UInt8) : ∀ (chunks : List Bytes) (sc : LineScanner),
    ch ∉ sc.mBuf → ∀ out ∈ (feedAll ch sc chunks).2, out.result = UInt32.ofNat out.pushed.length
  | [], _, _, _, hout => by cases hout
  | str :: chunks, sc, hsc, out, hout => by
    obtain ⟨hscan, ls, hp, hc⟩ := feedLoop_fed ch [] sc.mBuf str [] 0 (s := sc.mBuf) ⟨hsc, .inl ⟨rfl, rfl⟩⟩
    rw [feedAll, List.mem_cons] at hout
    rcases hout with rfl | hout
    · rw [feed, hc, hp, UInt32.zero_add, List.nil_append]
    · exact feedAll_counted ch chunks _ hscan.no_sep out hout

theorem scanned_init (ch : UInt8) : Scanned ch [] (mBuf {}) [] := ⟨List.not_mem_nil, .inl ⟨rfl, rfl⟩⟩

/-- **How a stream is cut does not matter**: feeding its chunks and then finalizing pushes its non-empty lines, once each
and in order; each call counts the lines that it pushed in 32 bits, `finalize` says whether a line was left, and the
scanner is empty afterwards. -/
theorem feed_chunks (ch : UInt8) (chunks : List Bytes) :
    pushedBy (feedAll ch {} chunks).2 ++ (feedAll ch {} chunks).1.finalize.pushed = lines ch chunks.flatten ∧
      (∀ out ∈ (feedAll ch {} chunks).2, out.result.toNat = out.pushed.length % 2 ^ 32) ∧
      ((∀ out ∈ (feedAll ch {} chunks).2, out.pushed.length < 2 ^ 32) →
        ((feedAll ch {} chunks).2.map (·.result.toNat)).sum = (pushedBy (feedAll ch {} chunks).2).length) ∧
      ((feedAll ch {} chunks).1.finalize.result = true ↔
        chunks.flatten ≠ [] ∧ chunks.flatten.getLast? ≠ some ch) ∧
      (feedAll ch {} chunks).1.finalize.scanner.mBuf = [] := by
  have h := feedAll_scanned ch chunks {} (scanned_init ch)
  rw [List.nil_append, List.nil_append] at h
  have hcount : ∀ out ∈ (feedAll ch {} chunks).2, out.result.toNat = out.pushed.length % 2 ^ 32 := by
    intro out hout
    rw [feedAll_counted ch chunks {} List.not_mem_nil out hout, UInt32.toNat_ofNat']
  refine ⟨?_, hcount, fun hlt => ?_, ?_, rfl⟩
  · rw [h.lines_eq, finalize]
    simp
  · rw [pushedBy, List.length_flatMap]
    refine congrArg List.sum (List.map_congr_left (fun out hout => ?_))
    rw [hcount out hout, Nat.mod_eq_of_lt (hlt out hout)]
  · rw [← h.ne_nil_iff, finalize]
    simp

theorem lines_replicate (n : ℕ) : lines 10 (List.replicate n [97, 10]).flatten = List.replicate n [97] := by
  induction n with
  | zero => rw [List.replicate_zero, List.flatten_nil, lines_of_not_mem List.not_mem_nil, if_pos rfl, List.replicate_zero]
  | succ n ih =>
    rw [List.replicate_succ, List.flatten_cons]
    calc lines 10 ([97] ++ 10 :: (List.replicate n [97, 10]).flatten)
        = lines 10 [97] ++ lines 10 (List.replicate n [97, 10]).flatten := lines_append_sep ..
      _ = List.replicate (n + 1) [97] := by rw [lines_of_not_mem (by decide), if_neg (by decide), ih]; rfl

theorem getLast?_flatten_replicate (n : ℕ) : (List.replicate (n + 1) [97, 10]).flatten.getLast? = some (10 : UInt8) := by
  rw [List.replicate_succ', List.flatten_concat, List.getLast?_append_of_ne_nil _ (by decide)]
  rfl

/-- Terminated lines are all pushed by the call that reads them. -/
theorem pushedBy_replicate (n : ℕ) :
    pushedBy (feedAll 10 {} [(List.replicate (n + 1) [97, 10]).flatten]).2 = List.replicate (n + 1) [97] := by
  have h := feedAll_scanned 10 [(List.replicate (n + 1) [97, 10]).flatten] {} (scanned_init 10)
  rw [List.nil_append, List.nil_append, List.flatten_singleton] at h
  have hbuf := not_not.1 (mt h.ne_nil_iff.1 (fun hl => hl.2 (getLast?_flatten_replicate n)))
  have hl := h.lines_eq
  rwa [lines_replicate, if_pos hbuf, List.append_nil, eq_comm] at hl

/-- A chunk of `2 ^ 32` lines: the call returns 0. -/
theorem feed_count_wraps :
    ((feedAll 10 {} [(List.replicate (2 ^ 32) [97, 10]).flatten]).2.map (·.result.toNat)).sum
      ≠ (pushedBy (feedAll 10 {} [(List.replicate (2 ^ 32) [97, 10]).flatten]).2).length := by
  have hp := pushedBy_replicate (2 ^ 32 - 1)
  have hc := feedAll_counted 10 [(List.replicate (2 ^ 32 - 1 + 1) [97, 10]).flatten] {} List.not_mem_nil
  rw [show 2 ^ 32 - 1 + 1 = 2 ^ 32 by norm_num] at hp hc
  generalize (List.replicate (2 ^ 32) [97, 10]).flatten = str at hp hc ⊢
  have hout := hc _ (by rw [feedAll]; exact List.mem_cons_self)
  rw [hp, List.length_replicate]
  rw [feedAll, feedAll, pushedBy, List.flatMap_singleton] at hp
  rw [feedAll, feedAll, List.map_singleton, List.sum_singleton, hout, hp, List.length_replicate]
  decide

end LineScanner
end Fzx
