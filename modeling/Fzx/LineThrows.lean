import Fzx.LineScanner
import Fzx.Items
import Fzx.Lib.Run
/-!
# LineThrows — a push that throws (line_scanner.hpp)

`feed` and `finalize` once more, with a `push` that has a state of its own and may throw.  Each byte carries its place in
the stream, which `push` does not see, so that it is known where the bytes of a line come from.  The callers catch what is
thrown and go on with the same scanner (term_app.cpp, lua/fzx.cpp).
-/
namespace Fzx

open Lib

namespace Throws

/-- A byte and its place in the stream. -/
abbrev Cell := UInt8 × ℕ

def bytes (l : List Cell) : Bytes := l.map Prod.fst

/-- A `push` in some state: what it throws for a line, and the state it leaves. -/
abbrev Push (σ ε : Type) := σ → Bytes → Except ε Unit × σ

/-- What a call leaves: the buffer, the state of `push`, the lines passed to it, and what is returned or thrown. -/
structure Call (σ ε ρ : Type) where
  mBuf : List Cell
  state : σ
  passed : List (List Cell)
  result : Except ε ρ

variable {σ ε : Type}

/-- The loop of `feed`, standing at `it`. -/
def feedLoop (push : Push σ ε) (ch : UInt8) (mBuf it : List Cell) (st : σ) (passed : List (List Cell)) (count : UInt32) :
    Call σ ε UInt32 :=
  let line := it.takeWhile (fun c => c.1 ≠ ch)
  let len := line.length
  if _h : len = it.length then
    { mBuf := if len ≠ 0 then mBuf ++ line else mBuf, state := st, passed, result := .ok count }
  else if len = 0 then
    if ¬ mBuf.isEmpty then
      match push st (bytes mBuf) with
      | (.error e, st) => { mBuf, state := st, passed := passed ++ [mBuf], result := .error e }
      | (.ok (), st) => feedLoop push ch [] (it.drop (len + 1)) st (passed ++ [mBuf]) (count + 1)
    else feedLoop push ch mBuf (it.drop (len + 1)) st passed count
  else if mBuf.isEmpty then
    match push st (bytes line) with
    | (.error e, st) => { mBuf, state := st, passed := passed ++ [line], result := .error e }
    | (.ok (), st) => feedLoop push ch mBuf (it.drop (len + 1)) st (passed ++ [line]) (count + 1)
  else
    let mBuf := mBuf ++ line
    match push st (bytes mBuf) with
    | (.error e, st) => { mBuf, state := st, passed := passed ++ [mBuf], result := .error e }
    | (.ok (), st) => feedLoop push ch [] (it.drop (len + 1)) st (passed ++ [mBuf]) (count + 1)
termination_by it.length
decreasing_by
  all_goals
    have hne : it ≠ [] := fun he => _h (by simp [len, line, he])
    have := List.length_pos_iff.2 hne
    rw [List.length_drop]
    omega

def feed (push : Push σ ε) (mBuf : List Cell) (st : σ) (str : List Cell) (ch : UInt8) : Call σ ε UInt32 :=
  feedLoop push ch mBuf str st [] 0

def finalize (push : Push σ ε) (mBuf : List Cell) (st : σ) : Call σ ε Bool :=
  let empty := mBuf.isEmpty
  if ¬ empty then
    match push st (bytes mBuf) with
    | (.error e, st) => { mBuf, state := st, passed := [mBuf], result := .error e }
    | (.ok (), st) => { mBuf := [], state := st, passed := [mBuf], result := .ok (!empty) }
  else { mBuf := [], state := st, passed := [], result := .ok (!empty) }

/-! ## All calls -/

/-- What a call did: the lines it passed to `push`, and the one that `push` threw for. -/
structure Entry where
  passed : List (List Cell)
  failed : Option (List Cell)

def Call.entry {ρ : Type} (c : Call σ ε ρ) : Entry :=
  { passed := c.passed
    failed := match c.result with
      | .error _ => c.passed.getLast?
      | .ok _ => none }

/-- One scanner and its callback; `fed` is how many bytes came so far. -/
structure World (σ : Type) where
  mBuf : List Cell
  state : σ
  fed : ℕ
  log : List Entry

namespace World

/-- The scanner may hold anything; its bytes came first. -/
def init (mBuf : Bytes) (st : σ) : World σ := { mBuf := mBuf.zipIdx, state := st, fed := mBuf.length, log := [] }

/-- What a call leaves of the scanner. -/
def leave {ρ : Type} (w : World σ) (fed : ℕ) (c : Call σ ε ρ) : World σ :=
  { mBuf := c.mBuf, state := c.state, fed, log := w.log ++ [c.entry] }

end World

inductive Action where
  | feed (str : Bytes) (ch : UInt8)
  | finalize

/-- The exception of a call ends with it. -/
def perform (push : Push σ ε) (w : World σ) : Action → World σ
  | .feed str ch => w.leave (w.fed + str.length) (feed push w.mBuf w.state (str.zipIdx w.fed) ch)
  | .finalize => w.leave w.fed (finalize push w.mBuf w.state)

def step (push : Push σ ε) (w : World σ) (a : Action) : Option (World σ) := some (perform push w a)

/-- No byte of a line that `push` threw for is in a line of the later call, and all of these came after it. -/
def Later (e e' : Entry) : Prop := ∀ l ∈ e.failed, ∀ l' ∈ e'.passed, ∀ c ∈ l, ∀ d ∈ l', c.2 < d.2

/-- **No failed line is seen again** by a later call. -/
def Clean (log : List Entry) : Prop := log.Pairwise Later

/-- The line that began in earlier calls, where this call ends it. -/
def carried (w : World σ) : Action → Option Bytes
  | .feed str ch => if w.mBuf ≠ [] ∧ ch ∈ str then some (bytes w.mBuf ++ str.takeWhile (· ≠ ch)) else none
  | .finalize => if w.mBuf ≠ [] then some (bytes w.mBuf) else none

/-- `push` does not throw for it. -/
def Accepts (push : Push σ ε) (w : World σ) (a : Action) : Prop := ∀ l ∈ carried w a, (push w.state l).1 = .ok ()

/-! ## One call -/

variable {push : Push σ ε} {ch : UInt8} {mBuf it : List Cell} {st : σ} {passed : List (List Cell)} {count : UInt32}

theorem forall_mem_concat {P : Cell → Prop} {l : List Cell} (hp : ∀ l ∈ passed, ∀ c ∈ l, P c) (hl : ∀ c ∈ l, P c) :
    ∀ l' ∈ passed ++ [l], ∀ c ∈ l', P c := fun l' hl' => by
  rcases List.mem_append.1 hl' with hl' | hl'
  · exact hp l' hl'
  · rw [List.mem_singleton.1 hl']
    exact hl

theorem forall_mem_takeWhile {P : Cell → Prop} {p : Cell → Bool} (hit : ∀ c ∈ it, P c) : ∀ c ∈ it.takeWhile p, P c :=
  fun c hc => hit c ((List.takeWhile_sublist p).subset hc)

/-- **Every byte that a call of `feed` passes on or keeps** is one of its chunk or was in the buffer. -/
theorem feedLoop_cells (P : Cell → Prop) (hbuf : ∀ c ∈ mBuf, P c) (hit : ∀ c ∈ it, P c)
    (hp : ∀ l ∈ passed, ∀ c ∈ l, P c) :
    (∀ l ∈ (feedLoop push ch mBuf it st passed count).passed, ∀ c ∈ l, P c) ∧
      ∀ c ∈ (feedLoop push ch mBuf it st passed count).mBuf, P c := by
  have hdrop : ∀ {it : List Cell} {n : ℕ}, (∀ c ∈ it, P c) → ∀ c ∈ it.drop n, P c := fun hit c hc =>
    hit c (List.mem_of_mem_drop hc)
  have happend : ∀ {l l' : List Cell}, (∀ c ∈ l, P c) → (∀ c ∈ l', P c) → ∀ c ∈ l ++ l', P c := fun hl hl' c hc =>
    (List.mem_append.1 hc).elim (hl c) (hl' c)
  fun_induction feedLoop push ch mBuf it st passed count with
  | case1 mBuf it st passed count line len hlen =>
    refine ⟨hp, ?_⟩
    dsimp only
    split
    · exact happend hbuf (forall_mem_takeWhile hit)
    · exact hbuf
  | case2 mBuf it st passed count line len hlen h0 hne e st' hpush => exact ⟨forall_mem_concat hp hbuf, hbuf⟩
  | case3 mBuf it st passed count line len hlen h0 hne st' hpush ih =>
    exact ih nofun (hdrop hit) (forall_mem_concat hp hbuf)
  | case4 mBuf it st passed count line len hlen h0 hne ih => exact ih hbuf (hdrop hit) hp
  | case5 mBuf it st passed count line len hlen h0 hne e st' hpush =>
    exact ⟨forall_mem_concat hp (forall_mem_takeWhile hit), hbuf⟩
  | case6 mBuf it st passed count line len hlen h0 hne st' hpush ih =>
    exact ih hbuf (hdrop hit) (forall_mem_concat hp (forall_mem_takeWhile hit))
  | case7 mBuf it st passed count line len hlen h0 hne mBuf' e st' hpush =>
    have hall := happend hbuf (forall_mem_takeWhile (p := fun c => c.1 ≠ ch) hit)
    exact ⟨forall_mem_concat hp hall, hall⟩
  | case8 mBuf it st passed count line len hlen h0 hne mBuf' st' hpush ih =>
    exact ih nofun (hdrop hit) (forall_mem_concat hp (happend hbuf (forall_mem_takeWhile hit)))

/-- **A line that is all of one chunk** is thrown for out of an empty buffer, which stays empty. -/
theorem feedLoop_nil_error {e : ε} (he : (feedLoop push ch [] it st passed count).result = .error e) :
    (feedLoop push ch [] it st passed count).mBuf = [] := by
  generalize hb : ([] : List Cell) = mBuf at he ⊢
  fun_induction feedLoop push ch mBuf it st passed count with
  | case1 => cases he
  | case2 mBuf it st passed count line len hlen h0 hne => exact absurd (List.isEmpty_iff.2 hb.symm) hne
  | case3 mBuf it st passed count line len hlen h0 hne => exact absurd (List.isEmpty_iff.2 hb.symm) hne
  | case4 mBuf it st passed count line len hlen h0 hne ih => exact ih hb he
  | case5 => rfl
  | case6 mBuf it st passed count line len hlen h0 hne st' hpush ih => exact ih hb he
  | case7 mBuf it st passed count line len hlen h0 hne => exact absurd (List.isEmpty_iff.2 hb.symm) hne
  | case8 mBuf it st passed count line len hlen h0 hne => exact absurd (List.isEmpty_iff.2 hb.symm) hne

/-- A chunk without a separator is kept. -/
theorem feedLoop_no_sep (h : ∀ c ∈ it, c.1 ≠ ch) : feedLoop push ch mBuf it st passed count =
    { mBuf := mBuf ++ it, state := st, passed, result := .ok count } := by
  have hline : it.takeWhile (fun c => c.1 ≠ ch) = it := List.takeWhile_eq_self_iff.2 (by simpa using h)
  rw [feedLoop]
  dsimp only
  rw [hline, dif_pos rfl]
  congr 1
  split
  · rfl
  · rename_i h0
    rw [List.length_eq_zero_iff.1 (not_not.1 h0), List.append_nil]

theorem length_takeWhile_ne (hsep : ∃ c ∈ it, c.1 = ch) : (it.takeWhile (fun c => c.1 ≠ ch)).length ≠ it.length := by
  obtain ⟨c, hc, he⟩ := hsep
  intro hlen
  have hline : it.takeWhile (fun c => c.1 ≠ ch) = it := (List.takeWhile_sublist _).eq_of_length hlen
  have hall := List.takeWhile_eq_self_iff.1 hline c hc
  simp [he] at hall

/-- **The line that the buffer begins**, where the chunk ends it: `push` gets it with the buffer still full. -/
theorem feedLoop_carried_error (passed : List (List Cell)) (count : UInt32) (hne : mBuf ≠ [])
    (hsep : ∃ c ∈ it, c.1 = ch) {e : ε} {st' : σ}
    (hp : push st (bytes (mBuf ++ it.takeWhile (fun c => c.1 ≠ ch))) = (.error e, st')) :
    feedLoop push ch mBuf it st passed count =
      { mBuf := mBuf ++ it.takeWhile (fun c => c.1 ≠ ch), state := st'
        passed := passed ++ [mBuf ++ it.takeWhile (fun c => c.1 ≠ ch)], result := .error e } := by
  have hempty : ¬ mBuf.isEmpty = true := fun he => hne (List.isEmpty_iff.1 he)
  rw [feedLoop]
  dsimp only
  rw [dif_neg (length_takeWhile_ne hsep)]
  split
  · rename_i h0
    rw [List.length_eq_zero_iff.1 h0, List.append_nil] at hp ⊢
    rw [hp]
  · rw [hp]

/-- From there on the buffer is empty, if the line is accepted. -/
theorem feedLoop_carried_ok (passed : List (List Cell)) (count : UInt32) (hne : mBuf ≠ []) (hsep : ∃ c ∈ it, c.1 = ch)
    (hp : (push st (bytes (mBuf ++ it.takeWhile (fun c => c.1 ≠ ch)))).1 = .ok ()) :
    ∃ it' st' passed', feedLoop push ch mBuf it st passed count = feedLoop push ch [] it' st' passed' (count + 1) := by
  have hempty : ¬ mBuf.isEmpty = true := fun he => hne (List.isEmpty_iff.1 he)
  generalize hr : push st (bytes (mBuf ++ it.takeWhile (fun c => c.1 ≠ ch))) = r at hp
  obtain ⟨r, st'⟩ := r
  obtain rfl : r = .ok () := hp
  rw [feedLoop]
  dsimp only
  rw [dif_neg (length_takeWhile_ne hsep)]
  split
  · rename_i h0
    rw [List.length_eq_zero_iff.1 h0, List.append_nil] at hr
    rw [hr]
    exact ⟨_, _, _, rfl⟩
  · rw [hr]
    exact ⟨_, _, _, rfl⟩

/-! ## Where nothing is thrown -/

/-- A call of `feed` that does what `out` says. -/
structure SameFeed (c : Call σ ε UInt32) (out : LineScanner.Out UInt32) : Prop where
  mBuf : bytes c.mBuf = out.scanner.mBuf
  passed : c.passed.map bytes = out.pushed
  result : c.result = .ok out.result

theorem bytes_takeWhile_ne (it : List Cell) : (bytes it).takeWhile (· ≠ ch) = bytes (it.takeWhile (fun c => c.1 ≠ ch)) :=
  List.takeWhile_map

theorem bytes_length (l : List Cell) : (bytes l).length = l.length := List.length_map _

theorem bytes_drop (n : ℕ) (l : List Cell) : (bytes l).drop n = bytes (l.drop n) := List.map_drop.symm

theorem bytes_append (l l' : List Cell) : bytes l ++ bytes l' = bytes (l ++ l') := List.map_append.symm

theorem bytes_isEmpty (l : List Cell) : (bytes l).isEmpty = l.isEmpty := by cases l <;> rfl

theorem bytes_concat (ls : List (List Cell)) (l : List Cell) : ls.map bytes ++ [bytes l] = (ls ++ [l]).map bytes := by
  rw [List.map_append, List.map_singleton]

/-- **A call of `feed` that throws nothing** is, the places apart, the call of `LineScanner` that the other properties are
about. -/
theorem feedLoop_eq {r : UInt32} (hr : (feedLoop push ch mBuf it st passed count).result = .ok r) :
    SameFeed (feedLoop push ch mBuf it st passed count)
      (LineScanner.feedLoop ch (bytes mBuf) (bytes it) (passed.map bytes) count) := by
  fun_induction feedLoop push ch mBuf it st passed count with
  | case1 mBuf it st passed count line len hlen =>
    rw [LineScanner.feedLoop]
    simp only [bytes_takeWhile_ne, bytes_length, bytes_append]
    rw [dif_pos hlen]
    refine ⟨?_, rfl, rfl⟩
    dsimp only
    split <;> rfl
  | case2 => cases hr
  | case3 mBuf it st passed count line len hlen h0 hne st' hpush ih =>
    rw [LineScanner.feedLoop]
    simp only [bytes_takeWhile_ne, bytes_length, bytes_isEmpty, bytes_drop, bytes_concat]
    rw [dif_neg hlen, if_pos h0, if_pos hne]
    exact ih hr
  | case4 mBuf it st passed count line len hlen h0 hne ih =>
    rw [LineScanner.feedLoop]
    simp only [bytes_takeWhile_ne, bytes_length, bytes_isEmpty, bytes_drop]
    rw [dif_neg hlen, if_pos h0, if_neg hne]
    exact ih hr
  | case5 => cases hr
  | case6 mBuf it st passed count line len hlen h0 hne st' hpush ih =>
    rw [LineScanner.feedLoop]
    simp only [bytes_takeWhile_ne, bytes_length, bytes_isEmpty, bytes_drop, bytes_concat]
    rw [dif_neg hlen, if_neg h0, if_pos hne]
    exact ih hr
  | case7 => cases hr
  | case8 mBuf it st passed count line len hlen h0 hne mBuf' st' hpush ih =>
    rw [LineScanner.feedLoop]
    simp only [bytes_takeWhile_ne, bytes_length, bytes_isEmpty, bytes_drop, bytes_append, bytes_concat]
    rw [dif_neg hlen, if_neg h0, if_neg hne]
    exact ih hr

/-- **A line that is thrown for** is one that `LineScanner` pushes, and it is still in the buffer or came with this call. -/
theorem feedLoop_error {e : ε} (he : (feedLoop push ch mBuf it st passed count).result = .error e) :
    ∃ l : List Cell, (∃ st e' st', push st (bytes l) = (.error e', st')) ∧
      bytes l ∈ (LineScanner.feedLoop ch (bytes mBuf) (bytes it) (passed.map bytes) count).pushed ∧
      ((feedLoop push ch mBuf it st passed count).mBuf = l ∨ l.length ≤ it.length) := by
  have hmem : ∀ (mBuf : List Cell) {it : List Cell} {passed : List (List Cell)} {l : List Cell} {count : UInt32},
      bytes l ∈ (LineScanner.feedLoop ch (bytes mBuf) (bytes it) ((passed ++ [l]).map bytes) count).pushed :=
    fun mBuf it passed l count => (LineScanner.feedLoop_pushed_prefix ..).subset
      (List.mem_map_of_mem (List.mem_append_right _ (List.mem_singleton_self l)))
  have hdrop : ∀ {it l mBuf : List Cell} {n : ℕ}, (mBuf = l ∨ l.length ≤ (it.drop n).length) →
      mBuf = l ∨ l.length ≤ it.length :=
    fun h => h.imp_right (fun hl => hl.trans (List.length_drop ▸ Nat.sub_le _ _))
  fun_induction feedLoop push ch mBuf it st passed count with
  | case1 => cases he
  | case2 mBuf it st passed count line len hlen h0 hne e' st' hpush =>
    refine ⟨mBuf, ⟨st, e', st', hpush⟩, ?_, .inl rfl⟩
    rw [LineScanner.feedLoop]
    simp only [bytes_takeWhile_ne, bytes_length, bytes_isEmpty, bytes_drop, bytes_concat]
    rw [dif_neg hlen, if_pos h0, if_pos hne]
    exact hmem []
  | case3 mBuf it st passed count line len hlen h0 hne st' hpush ih =>
    obtain ⟨l, hp, hin, hl⟩ := ih he
    refine ⟨l, hp, ?_, hdrop hl⟩
    rw [LineScanner.feedLoop]
    simp only [bytes_takeWhile_ne, bytes_length, bytes_isEmpty, bytes_drop, bytes_concat]
    rw [dif_neg hlen, if_pos h0, if_pos hne]
    exact hin
  | case4 mBuf it st passed count line len hlen h0 hne ih =>
    obtain ⟨l, hp, hin, hl⟩ := ih he
    refine ⟨l, hp, ?_, hdrop hl⟩
    rw [LineScanner.feedLoop]
    simp only [bytes_takeWhile_ne, bytes_length, bytes_isEmpty, bytes_drop]
    rw [dif_neg hlen, if_pos h0, if_neg hne]
    exact hin
  | case5 mBuf it st passed count line len hlen h0 hne e' st' hpush =>
    refine ⟨line, ⟨st, e', st', hpush⟩, ?_, .inr (List.takeWhile_sublist _).length_le⟩
    rw [LineScanner.feedLoop]
    simp only [bytes_takeWhile_ne, bytes_length, bytes_isEmpty, bytes_drop, bytes_concat]
    rw [dif_neg hlen, if_neg h0, if_pos hne]
    exact hmem mBuf
  | case6 mBuf it st passed count line len hlen h0 hne st' hpush ih =>
    obtain ⟨l, hp, hin, hl⟩ := ih he
    refine ⟨l, hp, ?_, hdrop hl⟩
    rw [LineScanner.feedLoop]
    simp only [bytes_takeWhile_ne, bytes_length, bytes_isEmpty, bytes_drop, bytes_concat]
    rw [dif_neg hlen, if_neg h0, if_pos hne]
    exact hin
  | case7 mBuf it st passed count line len hlen h0 hne mBuf' e' st' hpush =>
    refine ⟨mBuf', ⟨st, e', st', hpush⟩, ?_, .inl rfl⟩
    rw [LineScanner.feedLoop]
    simp only [bytes_takeWhile_ne, bytes_length, bytes_isEmpty, bytes_drop, bytes_append, bytes_concat]
    rw [dif_neg hlen, if_neg h0, if_neg hne]
    exact hmem []
  | case8 mBuf it st passed count line len hlen h0 hne mBuf' st' hpush ih =>
    obtain ⟨l, hp, hin, hl⟩ := ih he
    refine ⟨l, hp, ?_, hdrop hl⟩
    rw [LineScanner.feedLoop]
    simp only [bytes_takeWhile_ne, bytes_length, bytes_isEmpty, bytes_drop, bytes_append, bytes_concat]
    rw [dif_neg hlen, if_neg h0, if_neg hne]
    exact hin

/-! ## A callback that records -/

/-- It keeps the lines that it accepts and throws for the others. -/
def recording (p : Bytes → Bool) : Push (List Bytes) Unit :=
  fun st l => if p l then (.ok (), st ++ [l]) else (.error (), st)

theorem recording_ok {p : Bytes → Bool} {st st' : List Bytes} {l : Bytes} (h : recording p st l = (.ok (), st')) :
    p l = true ∧ st' = st ++ [l] := by
  unfold recording at h
  split at h
  · rename_i hp
    cases h
    exact ⟨hp, rfl⟩
  · cases h

theorem recording_error {p : Bytes → Bool} {st st' : List Bytes} {l : Bytes} {e : Unit}
    (h : recording p st l = (.error e, st')) : p l = false := by
  unfold recording at h
  split at h
  · cases h
  · rename_i hp
    exact Bool.eq_false_iff.2 hp

/-- **What it keeps is what was passed to it**, where nothing is thrown. -/
theorem feedLoop_recording {p : Bytes → Bool} {st : List Bytes} {r : UInt32} (hst : st = passed.map bytes)
    (hp : ∀ l ∈ st, p l = true) (hr : (feedLoop (recording p) ch mBuf it st passed count).result = .ok r) :
    (feedLoop (recording p) ch mBuf it st passed count).state =
        (feedLoop (recording p) ch mBuf it st passed count).passed.map bytes ∧
      ∀ l ∈ (feedLoop (recording p) ch mBuf it st passed count).state, p l = true := by
  have hnext : ∀ {st st' : List Bytes} {passed : List (List Cell)} {l : List Cell}, st = passed.map bytes →
      (∀ l ∈ st, p l = true) → recording p st (bytes l) = (.ok (), st') →
      st' = (passed ++ [l]).map bytes ∧ ∀ l ∈ st', p l = true := by
    intro st st' passed l hst hp hpush
    obtain ⟨hl, rfl⟩ := recording_ok hpush
    refine ⟨by rw [hst, bytes_concat], fun l' hl' => ?_⟩
    rcases List.mem_append.1 hl' with hl' | hl'
    · exact hp l' hl'
    · rw [List.mem_singleton.1 hl']
      exact hl
  fun_induction feedLoop (recording p) ch mBuf it st passed count with
  | case1 => exact ⟨hst, hp⟩
  | case2 => cases hr
  | case3 mBuf it st passed count line len hlen h0 hne st' hpush ih =>
    exact ih (hnext hst hp hpush).1 (hnext hst hp hpush).2 hr
  | case4 mBuf it st passed count line len hlen h0 hne ih => exact ih hst hp hr
  | case5 => cases hr
  | case6 mBuf it st passed count line len hlen h0 hne st' hpush ih =>
    exact ih (hnext hst hp hpush).1 (hnext hst hp hpush).2 hr
  | case7 => cases hr
  | case8 mBuf it st passed count line len hlen h0 hne mBuf' st' hpush ih =>
    exact ih (hnext hst hp hpush).1 (hnext hst hp hpush).2 hr

/-! ## The invariant -/

structure Inv (w : World σ) : Prop where
  clean : Clean w.log
  buf : ∀ c ∈ w.mBuf, c.2 < w.fed
  failed : ∀ e ∈ w.log, ∀ l ∈ e.failed, ∀ c ∈ l, c.2 < w.fed ∧ ∀ d ∈ w.mBuf, c.2 < d.2

/-- All that a call passes on or keeps was in the buffer or comes after what was fed before. -/
def FromHere {ρ : Type} (w : World σ) (fed : ℕ) (c : Call σ ε ρ) : Prop :=
  ∀ P : Cell → Prop, (∀ x ∈ w.mBuf, P x) → (∀ x : Cell, w.fed ≤ x.2 → x.2 < fed → P x) →
    (∀ l ∈ c.passed, ∀ x ∈ l, P x) ∧ ∀ x ∈ c.mBuf, P x

theorem inv_init (b : Bytes) (st : σ) : Inv (World.init b st) where
  clean := List.Pairwise.nil
  buf := fun c hc => by
    have hlt := (List.mem_zipIdx hc).2.1
    rwa [Nat.zero_add] at hlt
  failed := nofun

variable {w : World σ} {a : Action}

theorem failed_mem {ρ : Type} {c : Call σ ε ρ} {l : List Cell} (hl : l ∈ c.entry.failed) :
    (∃ e, c.result = .error e) ∧ l ∈ c.passed := by
  unfold Call.entry at hl
  cases hr : c.result with
  | error e =>
    rw [hr] at hl
    exact ⟨⟨e, rfl⟩, List.mem_of_getLast? hl⟩
  | ok r =>
    rw [hr] at hl
    cases hl

/-- **One call more** leaves a clean log, as what it passes on came after every failed line. -/
theorem Inv.clean_leave {ρ : Type} (h : Inv w) {fed : ℕ} {c : Call σ ε ρ} (hc : FromHere w fed c) :
    Clean (w.leave fed c).log := by
  refine List.pairwise_append.2 ⟨h.clean, List.pairwise_singleton _ _, fun e he e' he' l hl l' hl' x hx => ?_⟩
  rw [List.mem_singleton.1 he'] at hl'
  obtain ⟨hlt, hbuf⟩ := h.failed e he l hl x hx
  exact (hc (fun d => x.2 < d.2) hbuf (fun d hd _ => Nat.lt_of_lt_of_le hlt hd)).1 l' hl'

/-- **A call that leaves nothing of a failed line in the buffer** keeps the invariant. -/
theorem Inv.leave {ρ : Type} (h : Inv w) {fed : ℕ} (hfed : w.fed ≤ fed) {c : Call σ ε ρ} (hc : FromHere w fed c)
    (herror : ∀ e, c.result = .error e → c.mBuf = []) : Inv (w.leave fed c) := by
  have hlt := hc (fun d => d.2 < fed) (fun d hd => Nat.lt_of_lt_of_le (h.buf d hd) hfed) (fun d _ hd => hd)
  refine ⟨h.clean_leave hc, hlt.2, fun e he l hl x hx => ?_⟩
  rcases List.mem_append.1 he with he | he
  · obtain ⟨hx', hbuf⟩ := h.failed e he l hl x hx
    refine ⟨Nat.lt_of_lt_of_le hx' hfed, ?_⟩
    exact (hc (fun d => x.2 < d.2) hbuf (fun d hd _ => Nat.lt_of_lt_of_le hx' hd)).2
  · rw [List.mem_singleton.1 he] at hl
    obtain ⟨⟨r, hr⟩, hmem⟩ := failed_mem hl
    refine ⟨hlt.1 l hmem x hx, fun d hd => ?_⟩
    have hd : d ∈ c.mBuf := hd
    rw [herror r hr] at hd
    cases hd

theorem fromHere_feed (str : Bytes) (ch : UInt8) :
    FromHere w (w.fed + str.length) (feed push w.mBuf w.state (str.zipIdx w.fed) ch) := fun P hbuf hnew => by
  refine feedLoop_cells P hbuf (fun x hx => ?_) nofun
  obtain ⟨hle, hlt, -⟩ := List.mem_zipIdx hx
  exact hnew x hle hlt

theorem fromHere_finalize : FromHere w w.fed (finalize push w.mBuf w.state) := fun P hbuf _ => by
  have hone : ∀ l ∈ [w.mBuf], ∀ x ∈ l, P x := fun l hl => by
    rw [List.mem_singleton.1 hl]
    exact hbuf
  unfold finalize
  dsimp only
  split
  · split
    · exact ⟨hone, hbuf⟩
    · exact ⟨hone, nofun⟩
  · exact ⟨nofun, nofun⟩

/-! ## The condition -/

/-- The chunk without the places. -/
theorem bytes_takeWhile (str : Bytes) (ch : UInt8) (k : ℕ) :
    bytes ((str.zipIdx k).takeWhile (fun c => c.1 ≠ ch)) = str.takeWhile (· ≠ ch) := by
  have hmap := List.takeWhile_map (f := Prod.fst) (p := fun c : UInt8 => decide (c ≠ ch)) (l := str.zipIdx k)
  rw [List.zipIdx_map_fst] at hmap
  exact hmap.symm

theorem exists_sep {str : Bytes} {ch : UInt8} (h : ch ∈ str) (k : ℕ) : ∃ c ∈ str.zipIdx k, c.1 = ch := by
  rw [← List.zipIdx_map_fst k str] at h
  exact List.mem_map.1 h

theorem no_sep {str : Bytes} {ch : UInt8} (h : ch ∉ str) (k : ℕ) : ∀ c ∈ str.zipIdx k, c.1 ≠ ch := by
  rintro c hc rfl
  refine h ?_
  have hmem := List.mem_map_of_mem (f := Prod.fst) hc
  rwa [List.zipIdx_map_fst] at hmem

/-- **Where the line that the buffer begins is accepted**, a call that throws leaves the buffer empty. -/
theorem feed_error {str : Bytes} {ch : UInt8} (hacc : Accepts push w (.feed str ch)) {e : ε}
    (he : (feed push w.mBuf w.state (str.zipIdx w.fed) ch).result = .error e) :
    (feed push w.mBuf w.state (str.zipIdx w.fed) ch).mBuf = [] := by
  unfold feed at he ⊢
  by_cases hne : w.mBuf = []
  · rw [hne] at he ⊢
    exact feedLoop_nil_error he
  by_cases hsep : ch ∈ str
  · have hline : carried w (.feed str ch) = some (bytes w.mBuf ++ str.takeWhile (· ≠ ch)) := if_pos ⟨hne, hsep⟩
    have hp := hacc _ hline
    rw [← bytes_takeWhile str ch w.fed, bytes, bytes, ← List.map_append] at hp
    obtain ⟨it', st', passed', hr⟩ := feedLoop_carried_ok [] 0 hne (exists_sep hsep w.fed) hp
    rw [hr] at he ⊢
    exact feedLoop_nil_error he
  · rw [feedLoop_no_sep (no_sep hsep w.fed)] at he
    cases he

theorem finalize_error (hacc : Accepts push w .finalize) {e : ε}
    (he : (finalize push w.mBuf w.state).result = .error e) : (finalize push w.mBuf w.state).mBuf = [] := by
  by_cases hne : w.mBuf = []
  · rw [hne]
    rfl
  · have hline : carried w .finalize = some (bytes w.mBuf) := if_pos hne
    have hp := hacc _ hline
    have hempty : ¬ w.mBuf.isEmpty = true := fun h => hne (List.isEmpty_iff.1 h)
    unfold finalize at he ⊢
    dsimp only at he ⊢
    rw [if_pos hempty] at he ⊢
    generalize push w.state (bytes w.mBuf) = r at hp he ⊢
    obtain ⟨r, st'⟩ := r
    obtain rfl : r = .ok () := hp
    rfl

/-- Whatever the call is, what it passes on came after every failed line. -/
theorem clean_perform (push : Push σ ε) (w : World σ) (a : Action) (h : Inv w) : Clean (perform push w a).log := by
  cases a with
  | feed str ch => exact h.clean_leave (fromHere_feed str ch)
  | finalize => exact h.clean_leave fromHere_finalize

/-- **A call that accepts what it carries** keeps the invariant. -/
theorem inv_perform (h : Inv w) (hacc : Accepts push w a) : Inv (perform push w a) := by
  cases a with
  | feed str ch => exact h.leave (Nat.le_add_right _ _) (fromHere_feed str ch) (fun e he => feed_error hacc he)
  | finalize => exact h.leave (Nat.le_refl _) fromHere_finalize (fun e he => finalize_error hacc he)

theorem exists_error {l : Bytes} (h : (push st l).1 ≠ .ok ()) : ∃ e st', push st l = (.error e, st') := by
  cases hr : push st l with
  | mk r st' =>
    rw [hr] at h
    cases r with
    | ok u => exact absurd rfl h
    | error e => exact ⟨e, st', rfl⟩

theorem failed_leave {ρ : Type} {fed : ℕ} {c : Call σ ε ρ} {mBuf : List Cell} {st' : σ} {e : ε} (hne : mBuf ≠ [])
    (hc : c = { mBuf, state := st', passed := [mBuf], result := .error e }) :
    (w.leave fed c).mBuf ≠ [] ∧ ∃ e ∈ (w.leave fed c).log, e.failed = some (w.leave fed c).mBuf := by
  subst hc
  exact ⟨hne, _, List.mem_append_right _ (List.mem_singleton_self _), rfl⟩

/-- **A call that throws for what it carries** leaves all of that line in the buffer. -/
theorem failed_of_not_accepts (hacc : ¬ Accepts push w a) :
    (perform push w a).mBuf ≠ [] ∧ ∃ e ∈ (perform push w a).log, e.failed = some (perform push w a).mBuf := by
  unfold Accepts at hacc
  push Not at hacc
  obtain ⟨l, hl, hp⟩ := hacc
  cases a with
  | feed str ch =>
    obtain ⟨⟨hne, hsep⟩, hl⟩ := Option.ite_none_right_eq_some.1 (show carried w (.feed str ch) = some l from hl)
    cases hl
    rw [← bytes_takeWhile str ch w.fed, bytes, bytes, ← List.map_append] at hp
    obtain ⟨e, st', hr⟩ := exists_error hp
    have hline : w.mBuf ++ (str.zipIdx w.fed).takeWhile (fun c => c.1 ≠ ch) ≠ [] := List.append_ne_nil_of_left_ne_nil hne _
    exact failed_leave hline (feedLoop_carried_error [] 0 hne (exists_sep hsep w.fed) hr)
  | finalize =>
    obtain ⟨hne, hl⟩ := Option.ite_none_right_eq_some.1 (show carried w .finalize = some l from hl)
    cases hl
    have hempty : ¬ w.mBuf.isEmpty = true := fun h => hne (List.isEmpty_iff.1 h)
    obtain ⟨e, st', hr⟩ := exists_error hp
    have hcall : finalize push w.mBuf w.state = { mBuf := w.mBuf, state := st', passed := [w.mBuf], result := .error e } := by
      rw [finalize, if_pos hempty, hr]
    exact failed_leave hne hcall

/-- `finalize` then delivers it again. -/
theorem not_clean_of_not_accepts (hacc : ¬ Accepts push w a) :
    ¬ Clean (perform push (perform push w a) .finalize).log := by
  obtain ⟨hne, e, he, hfailed⟩ := failed_of_not_accepts hacc
  obtain ⟨c, hc⟩ := List.exists_mem_of_ne_nil _ hne
  intro hclean
  have hpassed : (perform push w a).mBuf ∈ (finalize push (perform push w a).mBuf (perform push w a).state).entry.passed := by
    have hempty : ¬ (perform push w a).mBuf.isEmpty = true := fun h => hne (List.isEmpty_iff.1 h)
    rw [Call.entry, finalize, if_pos hempty]
    split <;> exact List.mem_singleton_self _
  have hlater := (List.pairwise_append.1 hclean).2.2 e he _ (List.mem_singleton_self _) _ hfailed _ hpassed c hc c hc
  exact Nat.lt_irrefl _ hlater

/-- **A line that began in an earlier call and is thrown for** is what goes wrong: in every state of a run every call that
comes next finds a clean scanner if and only if no call of the run was thrown for such a line. -/
theorem clean_iff (push : Push σ ε) (b : Bytes) (st : σ) (actions : List Action) :
    (∀ pre t, pre <+: actions → run (step push) (World.init b st) pre = some t →
      ∀ a u, step push t a = some u → Clean u.log) ↔ Meets (step push) (Accepts push) (World.init b st) actions := by
  refine meets_iff (I := Inv) (fun s hs a u hu => ?_) (fun s a t hs hq ht => ?_) (fun s a t hs ht hg => ?_) actions _
    (inv_init b st)
  · cases hu
    exact clean_perform push s a hs
  · cases ht
    exact inv_perform hs hq
  · cases ht
    by_contra hacc
    exact not_clean_of_not_accepts hacc (hg .finalize _ rfl)

/-! ## Items as the callback -/

/-- `[this](std::string_view item) { mFzx.pushItem(item); }`, down to the vector. -/
def pushItem (a : Alloc) : Push (Mem × Items) Exn := fun st s =>
  let r := st.2.push st.1 a s
  (r.1, r.2.1, r.2.2)

/-- Lines that are too big are thrown for. -/
theorem pushItem_too_big (a : Alloc) (st : Mem × Items) {s : Bytes} (hs : kItemSizeMask.toNat < s.length) :
    (pushItem a st s).1 = .error (.lengthError "item is too big") := by
  have hne : ¬ s.isEmpty = true := fun h => by
    rw [List.isEmpty_iff.1 h] at hs
    exact absurd hs (Nat.not_lt_zero _)
  unfold pushItem Items.push
  rw [if_neg hne, Items.allocItem, if_pos hs]

/-- A line that is too big and comes in a chunk of its own is thrown for when its separator comes. -/
theorem not_accepts_too_big (a : Alloc) (st : Mem × Items) {str : Bytes} {ch : UInt8} (hch : ch ∉ str)
    (hs : kItemSizeMask.toNat < str.length) :
    ¬ Accepts (pushItem a) (perform (pushItem a) (World.init [] st) (.feed str ch)) (.feed [ch] ch) := by
  have hcall : feed (pushItem a) [] st (str.zipIdx 0) ch =
      { mBuf := str.zipIdx, state := st, passed := [], result := .ok 0 } := feedLoop_no_sep (no_sep hch 0)
  have hmBuf : (perform (pushItem a) (World.init [] st) (.feed str ch)).mBuf = str.zipIdx := congrArg Call.mBuf hcall
  have hne : (perform (pushItem a) (World.init [] st) (.feed str ch)).mBuf ≠ [] := by
    rw [hmBuf, Ne, List.zipIdx_eq_nil_iff, ← List.length_eq_zero_iff]
    omega
  have hline : carried (perform (pushItem a) (World.init [] st) (.feed str ch)) (.feed [ch] ch) = some str := by
    have hbytes : bytes str.zipIdx = str := List.zipIdx_map_fst 0 str
    have hwhile : [ch].takeWhile (· ≠ ch) = [] := List.takeWhile_cons_of_neg (by simp)
    rw [carried, if_pos ⟨hne, List.mem_singleton_self ch⟩, hmBuf, hbytes, hwhile, List.append_nil]
  intro hacc
  have hok := hacc str hline
  rw [pushItem_too_big a _ hs] at hok
  cases hok

/-- A line of 2^25 bytes that comes in a chunk of its own: the separator after it makes the vector throw, and `finalize`
passes the line to it again. -/
theorem feed_too_big_again : ∃ w, run (step (pushItem ⟨some (fun _ => 7), some (fun _ => 9)⟩))
      (World.init [] (Mem.empty, {})) [.feed (List.replicate (2 ^ 25) 97) 10, .feed [10] 10, .finalize] = some w ∧
    ¬ Clean w.log := by
  refine ⟨_, rfl, not_clean_of_not_accepts (not_accepts_too_big _ _ ?_ ?_)⟩
  · exact fun h => absurd (List.eq_of_mem_replicate h) (by decide)
  · rw [List.length_replicate]
    decide

end Throws
end Fzx
