import Fzx.Lib.Run
/-!
# Tx — the triple buffer of tx.hpp

One writer fills and commits, one reader loads.  `commit` is three steps (count the tick, exchange, set the tick of the
buffer got back) and `load` five (read the tick, exchange, test, exchange back, test); the steps of the two threads
interleave freely.  The ticks are natural numbers: a `size_t` counts 2^64 commits before it wraps.

The history is what the claims are about and no step reads it: the values committed, in the order of the exchanges;
how many there were at the reader's last exchange; and for each completed load what it returned and what the read
buffer holds.
-/
namespace Fzx

open Lib

structure Tx (T : Type) where
  mBuffers : Fin 3 → T
  mTicks : Fin 3 → ℕ
  mWrite : Fin 3
  mRead : Fin 3
  mUnused : Fin 3

namespace Tx

variable {T : Type}

def init (d : T) : Tx T :=
  { mBuffers := fun _ => d, mTicks := fun _ => 0, mWrite := 0, mRead := 1, mUnused := 2 }

def readBuffer (tx : Tx T) : T := tx.mBuffers tx.mRead

/-- Where the writer is in `commit`. -/
inductive WriterPc where
  | idle
  | counted (tick : ℕ)
  | exchanged (tick : ℕ)
deriving DecidableEq

/-- Where the reader is in `load`, with the tick it read first. -/
inductive ReaderPc where
  | idle
  | began (tick : ℕ)
  | exchanged (tick : ℕ)
  | retrying (tick : ℕ)
  | exchangedBack (tick : ℕ)
deriving DecidableEq

/-- A completed load: its result, the commits before its last exchange, and what the read buffer then held. -/
structure Load (T : Type) where
  ret : Bool
  commit : ℕ
  value : T
deriving DecidableEq

structure Sys (T : Type) where
  tx : Tx T
  writer : WriterPc
  reader : ReaderPc
  commits : List T
  lastExchange : ℕ
  loads : List (Load T)

def Sys.init (d : T) : Sys T :=
  { tx := Tx.init d, writer := .idle, reader := .idle, commits := [], lastExchange := 0, loads := [] }

inductive Action (T : Type) where
  | write (v : T)
  | writer
  | reader

/-- The next step of `commit`. -/
def writerStep (s : Sys T) : Sys T :=
  match s.writer with
  | .idle =>
    let tick := s.tx.mTicks s.tx.mWrite + 1
    { s with tx := { s.tx with mTicks := Function.update s.tx.mTicks s.tx.mWrite tick }, writer := .counted tick }
  | .counted tick =>
    { s with tx := { s.tx with mWrite := s.tx.mUnused, mUnused := s.tx.mWrite }, writer := .exchanged tick,
             commits := s.commits ++ [s.tx.mBuffers s.tx.mWrite] }
  | .exchanged tick =>
    { s with tx := { s.tx with mTicks := Function.update s.tx.mTicks s.tx.mWrite tick }, writer := .idle }

/-- The end of `load`. -/
def Sys.finish (s : Sys T) (ret : Bool) : Sys T :=
  { s with reader := .idle, loads := s.loads ++ [{ ret, commit := s.lastExchange, value := s.tx.readBuffer }] }

/-- The reader's exchange. -/
def Sys.exchange (s : Sys T) (pc : ReaderPc) : Sys T :=
  { s with tx := { s.tx with mRead := s.tx.mUnused, mUnused := s.tx.mRead }, reader := pc,
           lastExchange := s.commits.length }

/-- The next step of `load`. -/
def readerStep (s : Sys T) : Sys T :=
  match s.reader with
  | .idle => { s with reader := .began (s.tx.mTicks s.tx.mRead) }
  | .began tick => s.exchange (.exchanged tick)
  | .exchanged tick => if s.tx.mTicks s.tx.mRead > tick then s.finish true else { s with reader := .retrying tick }
  | .retrying tick => s.exchange (.exchangedBack tick)
  | .exchangedBack tick => s.finish (s.tx.mTicks s.tx.mRead > tick)

/-- A step of either thread; the writer fills its buffer between two commits. -/
def step (s : Sys T) : Action T → Option (Sys T)
  | .write v =>
    if s.writer = .idle then
      some { s with tx := { s.tx with mBuffers := Function.update s.tx.mBuffers s.tx.mWrite v } }
    else none
  | .writer => some (writerStep s)
  | .reader => some (readerStep s)

/-! ## What is promised -/

/-- The value of the `k`-th commit, the initial one for the zeroth. -/
def valueAt (d : T) (commits : List T) (k : ℕ) : T := (d :: commits).getD k d

/-- The commit held after some loads. -/
def heldAfter (loads : List (Load T)) : ℕ := (loads.getLast?.map Load.commit).getD 0

/-- A load after the loads `pre` got the last commit before its last exchange, says whether that is news, and never
goes back. -/
structure LoadOk (d : T) (commits : List T) (pre : List (Load T)) (l : Load T) : Prop where
  value : l.value = valueAt d commits l.commit
  ret : l.ret = true ↔ heldAfter pre < l.commit
  mono : heldAfter pre ≤ l.commit
  le : l.commit ≤ commits.length

/-! ## The invariant -/

section

variable (d : T)

/-- A buffer holds the commit `k`. -/
def Holds (s : Sys T) (b : Fin 3) (k : ℕ) : Prop :=
  s.tx.mTicks b = k ∧ s.tx.mBuffers b = valueAt d s.commits k ∧ k ≤ s.commits.length

/-- What the unused buffer is while the reader holds the commit `k`: the last commit, or older than `k` when that is the
last one. -/
def UnusedOk (s : Sys T) (k : ℕ) : Prop :=
  Holds d s s.tx.mUnused s.commits.length ∨ (s.commits.length = k ∧ s.tx.mTicks s.tx.mUnused ≤ k)

def WriterOk (s : Sys T) : Prop :=
  match s.writer with
  | .idle => s.tx.mTicks s.tx.mWrite = s.commits.length
  | .counted tick => tick = s.commits.length + 1 ∧ s.tx.mTicks s.tx.mWrite = tick
  | .exchanged tick => tick = s.commits.length

/-- The reader gave its buffer up for an older one: the last commit is unused. -/
def GaveUp (s : Sys T) (k : ℕ) : Prop :=
  s.tx.mTicks s.tx.mRead ≤ k ∧ k ≤ s.commits.length ∧ Holds d s s.tx.mUnused s.commits.length

/-- The reader holds what its last exchange got, no older than `k`. -/
def Got (s : Sys T) (k : ℕ) : Prop :=
  Holds d s s.tx.mRead s.lastExchange ∧ k ≤ s.lastExchange ∧ UnusedOk d s s.lastExchange

def ReaderOk (s : Sys T) : Prop :=
  match s.reader with
  | .idle => Holds d s s.tx.mRead (heldAfter s.loads) ∧ UnusedOk d s (heldAfter s.loads)
  | .began tick =>
    tick = heldAfter s.loads ∧ Holds d s s.tx.mRead (heldAfter s.loads) ∧ UnusedOk d s (heldAfter s.loads)
  | .exchanged tick =>
    tick = heldAfter s.loads ∧
      ((Got d s (heldAfter s.loads) ∧ heldAfter s.loads < s.lastExchange) ∨ GaveUp d s (heldAfter s.loads))
  | .retrying tick => tick = heldAfter s.loads ∧ GaveUp d s (heldAfter s.loads)
  | .exchangedBack tick => tick = heldAfter s.loads ∧ Got d s (heldAfter s.loads)

structure Inv (s : Sys T) : Prop where
  writeRead : s.tx.mWrite ≠ s.tx.mRead
  writeUnused : s.tx.mWrite ≠ s.tx.mUnused
  readUnused : s.tx.mRead ≠ s.tx.mUnused
  writer : WriterOk s
  reader : ReaderOk d s
  loads : ∀ pre l post, s.loads = pre ++ l :: post → LoadOk d s.commits pre l

/-! ## What does not change -/

variable {d : T}

theorem valueAt_append {commits : List T} {k : ℕ} (h : k ≤ commits.length) (v : T) :
    valueAt d (commits ++ [v]) k = valueAt d commits k := by
  unfold valueAt
  rw [← List.cons_append, List.getD_append _ _ _ _ (by simpa using Nat.lt_succ_of_le h)]

theorem valueAt_last (commits : List T) (v : T) : valueAt d (commits ++ [v]) (commits.length + 1) = v := by
  unfold valueAt
  rw [List.getD_cons_succ, List.getD_append_right _ _ _ _ le_rfl, Nat.sub_self, List.getD_cons_zero]

theorem heldAfter_append (loads : List (Load T)) (l : Load T) : heldAfter (loads ++ [l]) = l.commit := by
  simp [heldAfter]

theorem Holds.of_eq {s s' : Sys T} {b b' : Fin 3} {k : ℕ} (h : Holds d s b k) (ht : s'.tx.mTicks b' = s.tx.mTicks b)
    (hb : s'.tx.mBuffers b' = s.tx.mBuffers b) (hc : s'.commits = s.commits) : Holds d s' b' k := by
  unfold Holds at *
  rw [ht, hb, hc]
  exact h

/-- What the reader and the unused buffer are made of. -/
structure SameRead (s s' : Sys T) : Prop where
  reader : s'.reader = s.reader
  mRead : s'.tx.mRead = s.tx.mRead
  mUnused : s'.tx.mUnused = s.tx.mUnused
  tickRead : s'.tx.mTicks s.tx.mRead = s.tx.mTicks s.tx.mRead
  bufferRead : s'.tx.mBuffers s.tx.mRead = s.tx.mBuffers s.tx.mRead
  tickUnused : s'.tx.mTicks s.tx.mUnused = s.tx.mTicks s.tx.mUnused
  bufferUnused : s'.tx.mBuffers s.tx.mUnused = s.tx.mBuffers s.tx.mUnused
  commits : s'.commits = s.commits
  lastExchange : s'.lastExchange = s.lastExchange
  loads : s'.loads = s.loads

section Frame

variable {s s' : Sys T} (f : SameRead s s')
include f

theorem SameRead.holdsRead {k : ℕ} (h : Holds d s s.tx.mRead k) : Holds d s' s'.tx.mRead k :=
  h.of_eq (by rw [f.mRead, f.tickRead]) (by rw [f.mRead, f.bufferRead]) f.commits

theorem SameRead.holdsUnused {k : ℕ} (h : Holds d s s.tx.mUnused k) : Holds d s' s'.tx.mUnused k :=
  h.of_eq (by rw [f.mUnused, f.tickUnused]) (by rw [f.mUnused, f.bufferUnused]) f.commits

theorem SameRead.unusedOk {k : ℕ} (h : UnusedOk d s k) : UnusedOk d s' k := by
  unfold UnusedOk at *
  rw [f.commits]
  refine h.imp f.holdsUnused (fun h => ?_)
  rw [f.mUnused, f.tickUnused]
  exact h

theorem SameRead.gaveUp {k : ℕ} (h : GaveUp d s k) : GaveUp d s' k := by
  unfold GaveUp at *
  rw [f.mRead, f.tickRead, f.commits]
  exact ⟨h.1, h.2.1, f.holdsUnused h.2.2⟩

theorem SameRead.got {k : ℕ} (h : Got d s k) : Got d s' k := by
  unfold Got at *
  rw [f.lastExchange]
  exact ⟨f.holdsRead h.1, h.2.1, f.unusedOk h.2.2⟩

theorem SameRead.readerOk (h : ReaderOk d s) : ReaderOk d s' := by
  unfold ReaderOk at *
  rw [f.reader, f.loads, f.lastExchange]
  cases hr : s.reader with
  | idle => rw [hr] at h; exact ⟨f.holdsRead h.1, f.unusedOk h.2⟩
  | began tick => rw [hr] at h; exact ⟨h.1, f.holdsRead h.2.1, f.unusedOk h.2.2⟩
  | exchanged tick => rw [hr] at h; exact ⟨h.1, h.2.imp (fun h => ⟨f.got h.1, h.2⟩) f.gaveUp⟩
  | retrying tick => rw [hr] at h; exact ⟨h.1, f.gaveUp h.2⟩
  | exchangedBack tick => rw [hr] at h; exact ⟨h.1, f.got h.2⟩

end Frame

/-- The writer's own buffer may change: nobody else looks at it. -/
theorem sameRead_of_update {s : Sys T} (h : Inv d s) (tick : ℕ) (v : T) (pc : WriterPc) :
    SameRead s { s with tx := { s.tx with mTicks := Function.update s.tx.mTicks s.tx.mWrite tick,
                                           mBuffers := Function.update s.tx.mBuffers s.tx.mWrite v }, writer := pc } where
  reader := rfl
  mRead := rfl
  mUnused := rfl
  tickRead := Function.update_of_ne h.writeRead.symm _ _
  bufferRead := Function.update_of_ne h.writeRead.symm _ _
  tickUnused := Function.update_of_ne h.writeUnused.symm _ _
  bufferUnused := Function.update_of_ne h.writeUnused.symm _ _
  commits := rfl
  lastExchange := rfl
  loads := rfl

/-! ## The writer's steps -/

theorem inv_update {s : Sys T} (h : Inv d s) (tick : ℕ) (v : T) (pc : WriterPc)
    (hw : WriterOk { s with tx := { s.tx with mTicks := Function.update s.tx.mTicks s.tx.mWrite tick,
                                              mBuffers := Function.update s.tx.mBuffers s.tx.mWrite v }, writer := pc }) :
    Inv d { s with tx := { s.tx with mTicks := Function.update s.tx.mTicks s.tx.mWrite tick,
                                     mBuffers := Function.update s.tx.mBuffers s.tx.mWrite v }, writer := pc } where
  writeRead := h.writeRead
  writeUnused := h.writeUnused
  readUnused := h.readUnused
  writer := hw
  reader := (sameRead_of_update h tick v pc).readerOk h.reader
  loads := h.loads

/-- A commit leaves what the reader holds alone. -/
theorem Holds.commit {s s' : Sys T} {b : Fin 3} {k : ℕ} (h : Holds d s b k) {v : T} (ht : s'.tx.mTicks = s.tx.mTicks)
    (hb : s'.tx.mBuffers = s.tx.mBuffers) (hc : s'.commits = s.commits ++ [v]) : Holds d s' b k := by
  unfold Holds at *
  rw [ht, hb, hc, valueAt_append h.2.2, List.length_append]
  exact ⟨h.1, h.2.1, by omega⟩

/-- **The exchange of a commit** makes the unused buffer the last commit. -/
theorem inv_commit {s : Sys T} (h : Inv d s) {tick : ℕ} (hw : s.writer = .counted tick) :
    Inv d { s with tx := { s.tx with mWrite := s.tx.mUnused, mUnused := s.tx.mWrite }, writer := .exchanged tick,
                   commits := s.commits ++ [s.tx.mBuffers s.tx.mWrite] } := by
  have htick : tick = s.commits.length + 1 ∧ s.tx.mTicks s.tx.mWrite = tick := by
    have := h.writer
    unfold WriterOk at this
    rwa [hw] at this
  set s' : Sys T := { s with tx := { s.tx with mWrite := s.tx.mUnused, mUnused := s.tx.mWrite }, writer := .exchanged tick,
                             commits := s.commits ++ [s.tx.mBuffers s.tx.mWrite] } with hs'
  have hlen : s'.commits.length = s.commits.length + 1 := by simp [hs']
  have hnew : Holds d s' s'.tx.mUnused s'.commits.length := by
    rw [hlen]
    exact ⟨htick.2.trans htick.1, (valueAt_last _ _).symm, hlen.ge⟩
  have hold : ∀ {k : ℕ}, Holds d s s.tx.mRead k → Holds d s' s'.tx.mRead k := fun h => h.commit rfl rfl rfl
  have hunused : ∀ {k : ℕ}, UnusedOk d s' k := Or.inl hnew
  have hgot : ∀ {k : ℕ}, Got d s k → Got d s' k := fun h => ⟨hold h.1, h.2.1, hunused⟩
  have hgave : ∀ {k : ℕ}, GaveUp d s k → GaveUp d s' k := fun h => ⟨h.1, by rw [hlen]; exact h.2.1.trans (Nat.le_succ _), hnew⟩
  refine ⟨h.writeUnused.symm ∘ fun e => ?_, h.writeUnused.symm, h.writeRead.symm, ?_, ?_, ?_⟩
  · exact absurd e.symm h.readUnused
  · change tick = s'.commits.length
    rw [hlen, htick.1]
  · have hr := h.reader
    unfold ReaderOk at *
    change match s.reader with
      | .idle => _ | .began tick => _ | .exchanged tick => _ | .retrying tick => _ | .exchangedBack tick => _
    cases hpc : s.reader with
    | idle => rw [hpc] at hr; exact ⟨hold hr.1, hunused⟩
    | began tick => rw [hpc] at hr; exact ⟨hr.1, hold hr.2.1, hunused⟩
    | exchanged tick => rw [hpc] at hr; exact ⟨hr.1, hr.2.imp (fun h => ⟨hgot h.1, h.2⟩) hgave⟩
    | retrying tick => rw [hpc] at hr; exact ⟨hr.1, hgave hr.2⟩
    | exchangedBack tick => rw [hpc] at hr; exact ⟨hr.1, hgot hr.2⟩
  · intro pre l post hl
    obtain ⟨h1, h2, h3, h4⟩ := h.loads pre l post hl
    exact ⟨by rw [h1, valueAt_append h4], h2, h3, by rw [hlen]; exact h4.trans (Nat.le_succ _)⟩

theorem inv_writerStep {s : Sys T} (h : Inv d s) : Inv d (writerStep s) := by
  have hw := h.writer
  unfold WriterOk at hw
  unfold writerStep
  cases hpc : s.writer with
  | idle =>
    rw [hpc] at hw
    have := inv_update h (s.tx.mTicks s.tx.mWrite + 1) (s.tx.mBuffers s.tx.mWrite)
      (.counted (s.tx.mTicks s.tx.mWrite + 1)) ⟨by rw [hw], Function.update_self _ _ _⟩
    rwa [Function.update_eq_self] at this
  | counted tick => exact inv_commit h hpc
  | exchanged tick =>
    rw [hpc] at hw
    have := inv_update h tick (s.tx.mBuffers s.tx.mWrite) .idle (by
      change Function.update s.tx.mTicks s.tx.mWrite tick s.tx.mWrite = s.commits.length
      rw [Function.update_self, hw])
    rwa [Function.update_eq_self] at this

/-! ## The reader's steps -/

/-- The reader's exchange swaps the two buffers. -/
theorem inv_exchange {s : Sys T} (h : Inv d s) {pc : ReaderPc} (hr : ReaderOk d (s.exchange pc)) :
    Inv d (s.exchange pc) where
  writeRead := h.writeUnused
  writeUnused := h.writeRead
  readUnused := h.readUnused.symm
  writer := h.writer
  reader := hr
  loads := h.loads

/-- **The first exchange** gets the last commit, or gives up the last commit for an older buffer. -/
theorem inv_began {s : Sys T} (h : Inv d s) {tick : ℕ} (hpc : s.reader = .began tick) :
    Inv d (s.exchange (.exchanged tick)) := by
  have hr := h.reader
  unfold ReaderOk at hr
  rw [hpc] at hr
  obtain ⟨rfl, hread, hunused⟩ := hr
  refine inv_exchange h ⟨rfl, ?_⟩
  rcases hunused with hu | ⟨hc, hu⟩
  · rcases hread.2.2.lt_or_eq with hlt | heq
    · exact .inl ⟨⟨hu, hread.2.2, .inr ⟨rfl, hread.1.le.trans hread.2.2⟩⟩, hlt⟩
    · exact .inr ⟨hu.1.le.trans heq.ge, hread.2.2, heq ▸ hread⟩
  · exact .inr ⟨hu, hread.2.2, hc ▸ hread⟩

/-- **The second exchange** gets the last commit. -/
theorem inv_retrying {s : Sys T} (h : Inv d s) {tick : ℕ} (hpc : s.reader = .retrying tick) :
    Inv d (s.exchange (.exchangedBack tick)) := by
  have hr := h.reader
  unfold ReaderOk at hr
  rw [hpc] at hr
  obtain ⟨rfl, hold, hle, hu⟩ := hr
  exact inv_exchange h ⟨rfl, hu, hle, .inr ⟨rfl, hold.trans hle⟩⟩

/-- **A load returns**: what it got is what the reader holds from now on. -/
theorem inv_finish {s : Sys T} (h : Inv d s) (hgot : Got d s (heldAfter s.loads)) {ret : Bool}
    (hret : ret = true ↔ heldAfter s.loads < s.lastExchange) : Inv d (s.finish ret) where
  writeRead := h.writeRead
  writeUnused := h.writeUnused
  readUnused := h.readUnused
  writer := h.writer
  reader := by
    change Holds d _ _ (heldAfter (s.loads ++ _)) ∧ UnusedOk d _ (heldAfter (s.loads ++ _))
    rw [heldAfter_append]
    exact ⟨hgot.1, hgot.2.2⟩
  loads := forall_split_concat h.loads ⟨hgot.1.2.1, hret, hgot.2.1, hgot.1.2.2⟩

theorem inv_readerStep {s : Sys T} (h : Inv d s) : Inv d (readerStep s) := by
  have hr := h.reader
  unfold ReaderOk at hr
  unfold readerStep
  cases hpc : s.reader with
  | idle =>
    rw [hpc] at hr
    exact ⟨h.writeRead, h.writeUnused, h.readUnused, h.writer, ⟨hr.1.1, hr⟩, h.loads⟩
  | began tick => exact inv_began h hpc
  | exchanged tick =>
    rw [hpc] at hr
    obtain ⟨rfl, hr⟩ := hr
    dsimp only
    split
    · rename_i hlt
      rcases hr with ⟨hgot, hnew⟩ | hgave
      · exact inv_finish h hgot (iff_of_true rfl hnew)
      · exact absurd hgave.1 (not_le.2 hlt)
    · rename_i hle
      rcases hr with ⟨hgot, hnew⟩ | hgave
      · exact absurd (hgot.1.1 ▸ hnew) hle
      · exact ⟨h.writeRead, h.writeUnused, h.readUnused, h.writer, ⟨rfl, hgave⟩, h.loads⟩
  | retrying tick => exact inv_retrying h hpc
  | exchangedBack tick =>
    rw [hpc] at hr
    obtain ⟨rfl, hgot⟩ := hr
    refine inv_finish h hgot ?_
    rw [decide_eq_true_iff, hgot.1.1]

theorem inv_init : Inv d (Sys.init d) where
  writeRead := (by decide : (0 : Fin 3) ≠ 1)
  writeUnused := (by decide : (0 : Fin 3) ≠ 2)
  readUnused := (by decide : (1 : Fin 3) ≠ 2)
  writer := rfl
  reader := ⟨⟨rfl, rfl, le_rfl⟩, .inl ⟨rfl, rfl, le_rfl⟩⟩
  loads := fun pre l post h => by cases pre <;> cases h

/-- **Every step keeps the invariant.** -/
theorem inv_step {s s' : Sys T} {a : Action T} (h : Inv d s) (hs : step s a = some s') : Inv d s' := by
  cases a with
  | write v =>
    simp only [step] at hs
    split at hs
    · rename_i hidle
      cases hs
      have hw := h.writer
      unfold WriterOk at hw
      rw [hidle] at hw
      have := inv_update h (s.tx.mTicks s.tx.mWrite) v .idle (by
        change Function.update s.tx.mTicks s.tx.mWrite (s.tx.mTicks s.tx.mWrite) s.tx.mWrite = s.commits.length
        rw [Function.update_self, hw])
      rwa [Function.update_eq_self, ← hidle] at this
    · cases hs
  | writer => cases hs; exact inv_writerStep h
  | reader => cases hs; exact inv_readerStep h

end

/-! ## Every interleaving -/

theorem perm_of_ne {a b c : Fin 3} (h1 : a ≠ b) (h2 : a ≠ c) (h3 : b ≠ c) : [a, b, c].Perm [0, 1, 2] := by
  revert a b c
  decide

/-- **In every interleaving of commits and loads** the three indices stay a permutation; every load ends with the value
of the last commit before its last exchange, says exactly whether that commit is newer than the one held before, and
never goes back; and between two loads the read buffer keeps that value. -/
theorem tx_loads_ok (d : T) (actions : List (Action T)) (s : Sys T) (h : run step (Sys.init d) actions = some s) :
    [s.tx.mWrite, s.tx.mRead, s.tx.mUnused].Perm [0, 1, 2] ∧
      (∀ pre l post, s.loads = pre ++ l :: post → LoadOk d s.commits pre l) ∧
      (s.reader = .idle → s.tx.readBuffer = valueAt d s.commits (heldAfter s.loads)) := by
  have hinv := run_inv (Inv d) (fun _ _ _ hi hs => inv_step hi hs) actions _ s inv_init h
  refine ⟨perm_of_ne hinv.writeRead hinv.writeUnused hinv.readUnused, hinv.loads, fun hidle => ?_⟩
  have hr := hinv.reader
  unfold ReaderOk at hr
  rw [hidle] at hr
  exact hr.1.2.1

/-- A commit between the two exchanges of a load, which gets it. -/
theorem tx_loads_ok_42 : ∃ s : Sys ℕ, run step (Sys.init 0)
      [.reader, .reader, .reader, .write 42, .writer, .writer, .writer, .reader, .reader] = some s ∧
    s.loads = [⟨true, 1, 42⟩] ∧ LoadOk 0 s.commits [] ⟨true, 1, 42⟩ :=
  ⟨_, rfl, rfl, (tx_loads_ok 0
    [.reader, .reader, .reader, .write 42, .writer, .writer, .writer, .reader, .reader] _ rfl).2.1 [] _ [] rfl⟩

end Tx
end Fzx
