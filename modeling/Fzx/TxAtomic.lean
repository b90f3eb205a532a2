import Fzx.Tx
import Fzx.Pool
/-!
# TxAtomic — a triple buffer is an output

Seen from outside a `Tx` is what the pool takes an output for (`Output`): the exchange of a commit commits, one of the
exchanges of a load loads, and no other step changes anything.  Which exchange of a load it is the ticks say: the first,
if it got something newer.
-/
namespace Fzx.Tx

open Lib

variable {s s' : Sys Results}

/-- The load under way has what it will return. -/
def Sys.loaded (s : Sys Results) : Bool :=
  match s.reader with
  | .idle | .began _ | .retrying _ => false
  | .exchanged tick => s.tx.mTicks s.tx.mRead > tick
  | .exchangedBack _ => true

/-- What the reader holds: what its last load returned, until the one under way has something. -/
def Sys.held (s : Sys Results) : Results :=
  match s.reader with
  | .idle | .began _ | .exchangedBack _ => s.tx.readBuffer
  | .exchanged tick => if s.tx.mTicks s.tx.mRead > tick then s.tx.readBuffer else valueAt {} s.commits (heldAfter s.loads)
  | .retrying _ => valueAt {} s.commits (heldAfter s.loads)

/-- The commit under way has not exchanged yet. -/
def Sys.counted (s : Sys Results) : Bool :=
  match s.writer with
  | .counted _ => true
  | _ => false

/-- The commit under way has exchanged. -/
def Sys.committed (s : Sys Results) : Bool :=
  match s.writer with
  | .exchanged _ => true
  | _ => false

theorem writer_of_counted {s : Sys Results} (h : s.counted = true) : s.writer ≠ .idle ∧ s.committed = false := by
  unfold Sys.counted at h
  unfold Sys.committed
  cases hpc : s.writer with
  | counted tick => exact ⟨nofun, rfl⟩
  | _ =>
    rw [hpc] at h
    cases h

theorem writer_of_committed {s : Sys Results} (h : s.committed = true) : s.writer ≠ .idle ∧ s.counted = false := by
  unfold Sys.committed at h
  unfold Sys.counted
  cases hpc : s.writer with
  | exchanged tick => exact ⟨nofun, rfl⟩
  | _ =>
    rw [hpc] at h
    cases h

theorem of_writer_idle {s : Sys Results} (h : s.writer = .idle) : s.counted = false ∧ s.committed = false := by
  unfold Sys.counted Sys.committed
  rw [h]
  exact ⟨rfl, rfl⟩

/-- The output that a triple buffer is. -/
def Sys.output (s : Sys Results) : Output :=
  { writeBuffer := s.tx.mBuffers s.tx.mWrite, committed := valueAt {} s.commits s.commits.length, readBuffer := s.held }

/-- The writer fills its buffer. -/
def Sys.write (s : Sys Results) (v : Results) : Sys Results :=
  { s with tx := { s.tx with mBuffers := Function.update s.tx.mBuffers s.tx.mWrite v } }

theorem output_init : (Sys.init ({} : Results)).output = {} := rfl

/-- Between loads the read buffer is what is held. -/
theorem output_readBuffer (h : s.reader = .idle) : s.output.readBuffer = s.tx.readBuffer := by
  change s.held = _
  unfold Sys.held
  rw [h]

/-! ## The writer -/

theorem SameRead.loaded (f : SameRead s s') : s'.loaded = s.loaded := by
  unfold Sys.loaded
  rw [f.reader, f.mRead, f.tickRead]

theorem SameRead.held (f : SameRead s s') : s'.held = s.held := by
  unfold Sys.held Tx.readBuffer
  rw [f.reader, f.mRead, f.tickRead, f.bufferRead, f.commits, f.loads]

theorem output_of_sameRead (f : SameRead s s') :
    s'.output = { s.output with writeBuffer := s'.tx.mBuffers s'.tx.mWrite } := by
  unfold Sys.output
  rw [f.held, f.commits]

theorem sameRead_write (h : Inv {} s) (v : Results) : SameRead s (s.write v) := by
  have f := sameRead_of_update h (s.tx.mTicks s.tx.mWrite) v s.writer
  rwa [Function.update_eq_self] at f

theorem output_write (h : Inv {} s) (v : Results) : (s.write v).output = { s.output with writeBuffer := v } := by
  have hself : (s.write v).tx.mBuffers (s.write v).tx.mWrite = v := by
    change Function.update s.tx.mBuffers s.tx.mWrite v s.tx.mWrite = v
    rw [Function.update_self]
  rw [output_of_sameRead (sameRead_write h v), hself]

theorem inv_write (h : Inv {} s) (hw : s.writer = .idle) (v : Results) : Inv {} (s.write v) :=
  inv_step (a := .write v) h (if_pos hw)

/-- A tick of the writer's own buffer is set. -/
theorem sameRead_tick (h : Inv {} s) (tick : ℕ) (pc : WriterPc) :
    SameRead s { s with tx := { s.tx with mTicks := Function.update s.tx.mTicks s.tx.mWrite tick }, writer := pc } := by
  have f := sameRead_of_update h tick (s.tx.mBuffers s.tx.mWrite) pc
  rwa [Function.update_eq_self] at f

theorem held_le (h : Inv {} s) : heldAfter s.loads ≤ s.commits.length := by
  have hr := h.reader
  unfold ReaderOk at hr
  cases hpc : s.reader with
  | idle =>
    rw [hpc] at hr
    exact hr.1.2.2
  | began tick =>
    rw [hpc] at hr
    exact hr.2.1.2.2
  | exchanged tick =>
    rw [hpc] at hr
    rcases hr.2 with ⟨hgot, _⟩ | hgave
    · exact hgot.2.1.trans hgot.1.2.2
    · exact hgave.2.1
  | retrying tick =>
    rw [hpc] at hr
    exact hr.2.2.1
  | exchangedBack tick =>
    rw [hpc] at hr
    exact hr.2.2.1.trans hr.2.1.2.2

/-- How far the writer is from its next exchange or the end of its commit. -/
def WriterPc.rank : WriterPc → ℕ
  | .exchanged _ => 3
  | .idle => 2
  | .counted _ => 1

/-- A step of `commit`. -/
inductive CommitStep (s s' : Sys Results) : Prop where
  | count (hidle : s.writer = .idle) (ho : s'.output = s.output) (hc : s'.counted = true) (hx : s'.committed = false)
      (hne : s'.writer ≠ .idle) (hr : s'.writer.rank < s.writer.rank)
  | exchange (hs : s.counted = true) (ho : s'.output = s.output.commit (s.tx.mBuffers s.tx.mUnused)) (hc : s'.counted = false)
      (hx : s'.committed = true) (hne : s'.writer ≠ .idle)
  | ret (hs : s.committed = true) (ho : s'.output = s.output) (hidle : s'.writer = .idle)
      (hr : s'.writer.rank < s.writer.rank)

theorem writerStep_reader (s : Sys Results) : (writerStep s).reader = s.reader := by
  unfold writerStep
  cases s.writer <;> rfl

theorem writerStep_loaded (h : Inv {} s) : (writerStep s).loaded = s.loaded := by
  unfold writerStep
  cases hpc : s.writer with
  | idle => exact (sameRead_tick h _ _).loaded
  | counted tick => rfl
  | exchanged tick => exact (sameRead_tick h _ _).loaded

/-- **A step of `commit`** commits at its exchange, where it gets back a buffer that holds anything. -/
theorem writerStep_cases (h : Inv {} s) : CommitStep s (writerStep s) := by
  cases hpc : s.writer with
  | idle =>
    rw [writerStep, hpc]
    exact .count hpc (output_of_sameRead (sameRead_tick h _ _)) rfl rfl nofun
      (by rw [hpc]; exact Nat.lt_add_one _)
  | counted tick =>
    have hheld : valueAt {} (s.commits ++ [s.tx.mBuffers s.tx.mWrite]) (heldAfter s.loads) =
        valueAt {} s.commits (heldAfter s.loads) := valueAt_append (held_le h) _
    have hlast : valueAt {} (s.commits ++ [s.tx.mBuffers s.tx.mWrite]) (s.commits ++ [s.tx.mBuffers s.tx.mWrite]).length =
        s.tx.mBuffers s.tx.mWrite := by
      rw [List.length_append]
      exact valueAt_last _ _
    rw [writerStep, hpc]
    refine .exchange (by unfold Sys.counted; rw [hpc]) ?_ rfl rfl nofun
    unfold Sys.output Output.commit Sys.held
    dsimp only
    rw [hheld, hlast]
    rfl
  | exchanged tick =>
    rw [writerStep, hpc]
    exact .ret (by unfold Sys.committed; rw [hpc]) (output_of_sameRead (sameRead_tick h _ _)) rfl
      (by rw [hpc]; exact Nat.lt_add_one _)

/-! ## The reader -/

/-- How far a reader is from getting what it will return, or from returning it. -/
def Sys.rank (s : Sys Results) : ℕ :=
  if s.loaded then 5
  else
    match s.reader with
    | .idle => 4
    | .began _ => 3
    | .exchanged _ => 2
    | .retrying _ => 1
    | .exchangedBack _ => 0

/-- How far it is from the end of its load. -/
def ReaderPc.rank : ReaderPc → ℕ
  | .began _ => 4
  | .exchanged _ => 3
  | .retrying _ => 2
  | .exchangedBack _ => 1
  | .idle => 0

/-- Before it has what it will return, a load holds the value of the last one. -/
theorem held_eq (h : Inv {} s) (hl : s.loaded = false) : s.held = valueAt {} s.commits (heldAfter s.loads) := by
  have hr := h.reader
  unfold ReaderOk at hr
  unfold Sys.loaded at hl
  unfold Sys.held
  cases hpc : s.reader with
  | idle =>
    rw [hpc] at hr
    exact hr.1.2.1
  | began tick =>
    rw [hpc] at hr
    exact hr.2.1.2.1
  | exchanged tick =>
    simp only [hpc, decide_eq_false_iff_not] at hl
    exact if_neg hl
  | retrying tick => rfl
  | exchangedBack tick =>
    simp only [hpc] at hl
    cases hl

theorem held_of_loaded (hl : s.loaded = true) : s.held = s.tx.readBuffer := by
  unfold Sys.loaded at hl
  unfold Sys.held
  cases hpc : s.reader with
  | exchanged tick =>
    simp only [hpc, decide_eq_true_eq] at hl
    exact if_pos hl
  | exchangedBack tick => rfl
  | _ =>
    simp only [hpc] at hl
    cases hl

/-- A load returns once it has what it will return. -/
theorem readerStep_of_loaded (hl : s.loaded = true) : ∃ ret, readerStep s = s.finish ret := by
  unfold Sys.loaded at hl
  unfold readerStep
  cases hpc : s.reader with
  | exchanged tick =>
    simp only [hpc, decide_eq_true_eq] at hl
    exact ⟨true, if_pos hl⟩
  | exchangedBack tick => exact ⟨_, rfl⟩
  | _ =>
    simp only [hpc] at hl
    cases hl

/-- Until then it does not return, and it gets the last commit in one of its exchanges. -/
theorem readerStep_of_not_loaded (h : Inv {} s) (hl : s.loaded = false) : (readerStep s).reader ≠ .idle ∧
    (readerStep s).tx.mBuffers = s.tx.mBuffers ∧ (readerStep s).tx.mWrite = s.tx.mWrite ∧
    (readerStep s).commits = s.commits ∧ (readerStep s).loads = s.loads ∧
    ((readerStep s).loaded = true → (readerStep s).tx.readBuffer = valueAt {} s.commits s.commits.length) := by
  have hr := h.reader
  unfold ReaderOk at hr
  unfold Sys.loaded at hl
  cases hpc : s.reader with
  | idle =>
    rw [readerStep, hpc]
    exact ⟨nofun, rfl, rfl, rfl, rfl, nofun⟩
  | began tick =>
    rw [hpc] at hr
    obtain ⟨rfl, -, hunused⟩ := hr
    rw [readerStep, hpc]
    refine ⟨nofun, rfl, rfl, rfl, rfl, fun hnew => ?_⟩
    have hnew : s.tx.mTicks s.tx.mUnused > heldAfter s.loads := of_decide_eq_true hnew
    rcases hunused with hu | ⟨-, hu⟩
    · exact hu.2.1
    · omega
  | exchanged tick =>
    simp only [hpc, decide_eq_false_iff_not] at hl
    have he : readerStep s = { s with reader := .retrying tick } := by
      rw [readerStep, hpc]
      exact if_neg hl
    rw [he]
    exact ⟨nofun, rfl, rfl, rfl, rfl, nofun⟩
  | retrying tick =>
    rw [hpc] at hr
    rw [readerStep, hpc]
    exact ⟨nofun, rfl, rfl, rfl, rfl, fun _ => hr.2.2.2.2.1⟩
  | exchangedBack tick =>
    simp only [hpc] at hl
    cases hl

theorem readerStep_writer (s : Sys Results) : (readerStep s).writer = s.writer := by
  unfold readerStep
  cases s.reader with
  | exchanged tick =>
    dsimp only
    split <;> rfl
  | _ => rfl

/-- **A step of `load`** loads when it gets what it will return, and returns after that. -/
theorem output_readerStep (h : Inv {} s) : (s.loaded = true → (readerStep s).reader = .idle) ∧
    (s.loaded = false → (readerStep s).reader ≠ .idle) ∧
    (readerStep s).output = if (readerStep s).loaded = true then s.output.load else s.output := by
  cases hl : s.loaded with
  | true =>
    obtain ⟨ret, he⟩ := readerStep_of_loaded hl
    have hout : (s.finish ret).output = s.output := by
      unfold Sys.output
      rw [held_of_loaded hl]
      rfl
    rw [he]
    exact ⟨fun _ => rfl, nofun, hout⟩
  | false =>
    obtain ⟨hne, hb, hw, hc, hloads, hnew⟩ := readerStep_of_not_loaded h hl
    refine ⟨nofun, fun _ => hne, ?_⟩
    unfold Sys.output Output.load
    rw [hb, hw, hc]
    split
    · rename_i hl'
      rw [held_of_loaded hl', hnew hl']
    · rename_i hl'
      rw [held_eq h hl, held_eq (inv_readerStep h) (Bool.eq_false_iff.2 hl'), hc, hloads]

theorem rank_of_loaded (hl : s.loaded = true) : s.rank = 5 := if_pos hl

theorem readerStep_rank (hl : (readerStep s).loaded = false) : (readerStep s).rank < s.rank := by
  by_cases hs : s.loaded = true
  · obtain ⟨ret, he⟩ := readerStep_of_loaded hs
    rw [he, rank_of_loaded hs]
    exact Nat.lt_add_one 4
  · have hrank : (readerStep s).rank = _ := if_neg (Bool.eq_false_iff.1 hl)
    have hrank' : s.rank = _ := if_neg hs
    rw [hrank, hrank']
    unfold Sys.loaded at hs
    cases hpc : s.reader with
    | idle =>
      rw [readerStep, hpc]
      exact Nat.lt_add_one 3
    | began tick =>
      rw [readerStep, hpc]
      exact Nat.lt_add_one 2
    | exchanged tick =>
      have he : readerStep s = { s with reader := .retrying tick } := by
        rw [readerStep, hpc]
        refine if_neg (fun hnew => hs ?_)
        rw [hpc]
        exact decide_eq_true hnew
      rw [he]
      exact Nat.lt_add_one 1
    | retrying tick =>
      rw [readerStep, hpc]
      exact Nat.lt_add_one 0
    | exchangedBack tick =>
      rw [hpc] at hs
      exact absurd rfl hs

theorem readerStep_rank_pc (hne : s.reader ≠ .idle) : (readerStep s).reader.rank < s.reader.rank := by
  unfold readerStep
  cases hpc : s.reader with
  | idle => exact absurd hpc hne
  | exchanged tick =>
    dsimp only
    split
    · exact Nat.succ_pos 2
    · exact Nat.lt_add_one 2
  | began tick => exact Nat.lt_add_one 3
  | retrying tick => exact Nat.lt_add_one 1
  | exchangedBack tick => exact Nat.lt_add_one 0

end Fzx.Tx
