import Fzx.ThreadsRest
/-!
# ThreadsMaster — the results that worker 0 commits

The caller loads the results of worker 0 and is told of new ones by its callback.  `MasterMove` is what a step of the workers
does there: they leave what the main thread reads alone, and after a commit the callback is due (`WorkerThread.Due`).  The
main thread has the last commit, or its load will get it (`Tx.Sys.Latest`), unless there was a commit since.
-/
namespace Fzx

open Lib

/-! ## The reader of an output -/

namespace Tx

variable {O O' : Sys Results}

/-- The value of the last load. -/
def Sys.last (O : Sys Results) : Results := valueAt {} O.commits (heldAfter O.loads)

/-- The reader has the last commit, or gets it with the load it is in. -/
def Sys.Latest (O : Sys Results) : Prop :=
  match O.reader with
  | .idle => heldAfter O.loads = O.commits.length
  | .began _ | .retrying _ => True
  | .exchanged tick => O.tx.mTicks O.tx.mRead > tick → O.lastExchange = O.commits.length
  | .exchangedBack _ => O.lastExchange = O.commits.length

/-- The last load returned true. -/
def Sys.news (O : Sys Results) : Bool := (O.loads.getLast?.map Load.ret).getD false

/-- What the reader has is left alone. -/
structure SameReader (O O' : Sys Results) : Prop where
  reader : O'.reader = O.reader
  tick : O'.tx.mTicks O'.tx.mRead = O.tx.mTicks O.tx.mRead
  lastExchange : O'.lastExchange = O.lastExchange
  loads : O'.loads = O.loads

theorem SameReader.refl (O : Sys Results) : SameReader O O := ⟨rfl, rfl, rfl, rfl⟩

theorem SameRead.sameReader (f : SameRead O O') : SameReader O O' :=
  ⟨f.reader, by rw [f.mRead, f.tickRead], f.lastExchange, f.loads⟩

theorem SameReader.news (f : SameReader O O') : O'.news = O.news := by
  unfold Sys.news
  rw [f.loads]

theorem SameReader.latest (f : SameReader O O') (hc : O'.commits = O.commits) (h : O.Latest) : O'.Latest := by
  unfold Sys.Latest at *
  rw [f.reader, f.tick, f.lastExchange, f.loads, hc]
  exact h

theorem SameReader.last (f : SameReader O O') (h : Inv {} O)
    (hc : O'.commits = O.commits ∨ ∃ v, O'.commits = O.commits ++ [v]) :
    O'.last = O.last := by
  unfold Sys.last
  rw [f.loads]
  rcases hc with hc | ⟨v, hc⟩
  · rw [hc]
  · rw [hc, valueAt_append (held_le h)]

theorem writerStep_sameReader (h : Inv {} O) : SameReader O (writerStep O) := by
  unfold writerStep
  cases O.writer with
  | idle => exact (sameRead_tick h _ _).sameReader
  | counted tick => exact ⟨rfl, rfl, rfl, rfl⟩
  | exchanged tick => exact (sameRead_tick h _ _).sameReader

/-- Between two loads the read buffer has the value of the last one. -/
theorem last_of_idle (h : Inv {} O) (hr : O.reader = .idle) : O.last = O.tx.readBuffer := by
  have hreader := h.reader
  unfold ReaderOk at hreader
  rw [hr] at hreader
  exact hreader.1.2.1.symm

/-- **A step of a load**: it keeps up with the commits, and when it returns false it got nothing new. -/
theorem readerStep_latest (h : Inv {} O) (hl : O.reader ≠ .idle → O.Latest) : (readerStep O).Latest := by
  have hreader := h.reader
  unfold ReaderOk at hreader
  unfold Sys.Latest at hl
  cases hpc : O.reader with
  | idle =>
    rw [readerStep, hpc]
    trivial
  | began tick =>
    rw [readerStep, hpc]
    exact fun _ => rfl
  | exchanged tick =>
    rw [hpc] at hl
    have hl := hl (fun h => by cases h)
    rw [readerStep, hpc]
    dsimp only
    split
    · rename_i hnew
      change heldAfter (O.loads ++ [_]) = O.commits.length
      rw [heldAfter_append]
      exact hl hnew
    · trivial
  | retrying tick =>
    rw [readerStep, hpc]
    exact (rfl : O.commits.length = O.commits.length)
  | exchangedBack tick =>
    rw [hpc] at hl
    have hl := hl (fun h => by cases h)
    rw [readerStep, hpc]
    change heldAfter (O.loads ++ [_]) = O.commits.length
    rw [heldAfter_append]
    exact hl

theorem news_append {l : Load Results} {ls : List (Load Results)} (hl : O.loads = ls ++ [l]) : O.news = l.ret := by
  unfold Sys.news
  rw [hl, List.getLast?_append_of_ne_nil _ (List.cons_ne_nil _ _)]
  rfl

theorem readerStep_last (h : Inv {} O) :
    (readerStep O).last = O.last ∨ ((readerStep O).reader = .idle ∧ (readerStep O).news = true) := by
  have h' := inv_readerStep h
  by_cases hl : O.loaded = true
  · obtain ⟨ret, he⟩ := readerStep_of_loaded hl
    rw [he] at h' ⊢
    have hret := (h'.loads O.loads _ [] rfl).ret
    have hmono := (h'.loads O.loads _ [] rfl).mono
    cases hr : ret with
    | true => exact .inr ⟨rfl, news_append (O := O.finish true) rfl⟩
    | false =>
      left
      unfold Sys.last
      change valueAt {} O.commits (heldAfter (O.loads ++ [_])) = _
      rw [heldAfter_append]
      have hle : ¬ heldAfter O.loads < O.lastExchange := fun hlt => by cases hr.symm.trans (hret.2 hlt)
      rw [Nat.le_antisymm hmono (Nat.le_of_not_lt hle)]
  · obtain ⟨-, -, -, hc, hloads, -⟩ := readerStep_of_not_loaded h (Bool.eq_false_iff.2 hl)
    left
    unfold Sys.last
    rw [hc, hloads]

/-- Where the reader has the last commit a load changes nothing. -/
theorem output_load_of_latest (h : Inv {} O) (hr : O.reader = .idle) (hl : O.Latest) : O.output.load = O.output := by
  have hlast := last_of_idle h hr
  unfold Sys.Latest at hl
  rw [hr] at hl
  unfold Sys.last at hlast
  rw [hl] at hlast
  have hheld : O.output.readBuffer = O.tx.readBuffer := output_readBuffer hr
  have hcommitted : O.output.committed = O.output.readBuffer := hlast.trans hheld.symm
  exact congrArg (fun r => { O.output with readBuffer := r }) hcommitted

end Tx

/-! ## The steps of the workers -/

/-- The callback is to be made, or is in progress. -/
def WorkerThread.Due (T : WorkerThread) : Prop := (T.pc = .publish ∧ T.mOutput.committed = true) ∨ T.pc = .notify

/-- A step of the workers, as worker 0 has it. -/
structure MasterMove (T T' : WorkerThread) : Prop where
  reader : Tx.SameReader T.mOutput T'.mOutput
  notify : T.pc = .notify → T'.pc = .notify
  commits : (T'.mOutput.commits = T.mOutput.commits ∧ (T.Due → T'.Due)) ∨
    ((∃ v, T'.mOutput.commits = T.mOutput.commits ++ [v]) ∧ T'.pc = .publish ∧ T'.mOutput.committed = true)

namespace MasterMove

variable {T T' : WorkerThread}

theorem of_eq (ho : T'.mOutput = T.mOutput) (hpc : T'.pc = T.pc) : MasterMove T T' where
  reader := ho ▸ .refl _
  notify := fun hn => hpc.trans hn
  commits := by
    unfold WorkerThread.Due
    rw [ho, hpc]
    exact .inl ⟨rfl, id⟩

/-- Worker 0 goes on with no callback due. -/
theorem of_not_due (hr : Tx.SameReader T.mOutput T'.mOutput) (hc : T'.mOutput.commits = T.mOutput.commits)
    (hd : ¬ T.Due) : MasterMove T T' := ⟨hr, fun hn => absurd (.inr hn) hd, .inl ⟨hc, fun h => absurd h hd⟩⟩

theorem not_due (hp : T.pc ≠ .publish) (hn : T.pc ≠ .notify) : ¬ T.Due := by
  rintro (⟨h, -⟩ | h)
  · exact hp h
  · exact hn h

theorem commitStep {w : ℕ} (h : T.Ok w) (hpc : T.pc = .publish) : MasterMove T T.commitStep := by
  refine ⟨Tx.writerStep_sameReader h.tx, fun hn => (by cases hpc.symm.trans hn), ?_⟩
  change ((Tx.writerStep T.mOutput).commits = _ ∧ _) ∨ ((∃ v, (Tx.writerStep T.mOutput).commits = _) ∧ _)
  cases hw : T.mOutput.writer with
  | idle =>
    refine .inl ⟨by rw [Tx.writerStep, hw], fun hd => ?_⟩
    rcases hd with ⟨-, hc⟩ | hn
    · exact absurd hw (Tx.writer_of_committed hc).1
    · cases hpc.symm.trans hn
  | counted tick =>
    refine .inr ⟨⟨_, by rw [Tx.writerStep, hw]⟩, ?_, ?_⟩
    · change (if (Tx.writerStep T.mOutput).writer = .idle then WorkerPc.notify else T.pc) = _
      rw [Tx.writerStep, hw, if_neg (fun h => by cases h), hpc]
    · change (Tx.writerStep T.mOutput).committed = true
      rw [Tx.writerStep, hw]
      rfl
  | exchanged tick =>
    refine .inl ⟨by rw [Tx.writerStep, hw], fun _ => .inr ?_⟩
    change (if (Tx.writerStep T.mOutput).writer = .idle then WorkerPc.notify else T.pc) = _
    rw [Tx.writerStep, hw]
    rfl

end MasterMove

namespace ThreadsOk

open Threads

variable {b : Build} {s s' : Threads}

/-- **What a worker's step does to worker 0**, the end of the callback apart. -/
theorem worker_master {w : ℕ} (h : ThreadsOk s) (hs : s.step b (.worker w) = some s')
    (hc : ¬ (w = 0 ∧ (s.workers 0).pc = .notify)) : s'.main = s.main ∧ MasterMove (s.workers 0) (s'.workers 0) := by
  unfold Threads.step at hs
  simp only at hs
  split at hs
  · have hT := h.worker w
    cases workerMove_cases hs with
    | @own ho P hP =>
      refine ⟨rfl, ?_⟩
      by_cases hw : w = 0
      · subst hw
        rw [worker_self]
        refine .of_not_due (Tx.sameRead_write hT.tx _).sameReader rfl ?_
        rintro (⟨hp, hcom⟩ | hn)
        · exact (Tx.writer_of_committed hcom).1 (ho.publish hp).2
        · exact hc ⟨rfl, hn⟩
      · rw [worker_other (Ne.symm hw)]
        exact .of_eq rfl rfl
    | wait hpc hT' =>
      refine ⟨rfl, ?_⟩
      by_cases hw : w = 0
      · subst hw
        obtain ⟨E, -, -, -, rfl⟩ := hT.waitStep hT'
        rw [worker_self]
        exact .of_not_due (.refl _) rfl (MasterMove.not_due (by simp [hpc]) (by simp [hpc]))
      · rw [worker_other (Ne.symm hw)]
        exact .of_eq rfl rfl
    | get hpc hT' =>
      refine ⟨rfl, ?_⟩
      by_cases hw : w = 0
      · subst hw
        obtain ⟨E, -, rfl⟩ := Option.map_eq_some_iff.1 hT'
        rw [worker_self]
        exact .of_not_due (.refl _) rfl (MasterMove.not_due (by simp [hpc]) (by simp [hpc]))
      · rw [worker_other (Ne.symm hw)]
        exact .of_eq rfl rfl
    | @load i hpc hi hcon =>
      have hchild := hT.child_ne_zero i
      set c := (s.workers w).mergeState.child i with hcdef
      set t : Threads := s.setWorker c { s.workers c with mOutput := Tx.readerStep (s.workers c).mOutput } with ht
      have ht0 : t.workers 0 = s.workers 0 := worker_other (Ne.symm hchild) _
      have hload : s.loadStep c (fun s => s.goto w (.merging i)) =
          if (Tx.readerStep (s.workers c).mOutput).reader = .idle then t.goto w (.merging i) else t := rfl
      rw [hload]
      split
      · refine ⟨rfl, ?_⟩
        by_cases hw : w = 0
        · subst hw
          have hself : (t.goto 0 (.merging i)).workers 0 = (t.workers 0).goto (.merging i) := worker_self _ _ _
          rw [hself, ht0]
          exact .of_not_due (.refl _) rfl (MasterMove.not_due (by simp [hpc]) (by simp [hpc]))
        · have hother : (t.goto w (.merging i)).workers 0 = t.workers 0 := worker_other (Ne.symm hw) _
          rw [hother, ht0]
          exact .of_eq rfl rfl
      · refine ⟨rfl, ?_⟩
        rw [ht0]
        exact .of_eq rfl rfl
    | commit hpc hno =>
      refine ⟨rfl, ?_⟩
      by_cases hw : w = 0
      · subst hw
        rw [worker_self]
        exact .commitStep hT hpc
      · rw [worker_other (Ne.symm hw)]
        exact .of_eq rfl rfl
    | post hpc hw hs =>
      obtain ⟨E, -, -, -, he⟩ := post_cases hs
      set t : Threads := s.setWorker (parent w) { s.workers (parent w) with mEvents := E } with ht
      have ht0 : (t.workers 0).mOutput = (s.workers 0).mOutput ∧ (t.workers 0).pc = (s.workers 0).pc := by
        by_cases hp : parent w = 0
        · rw [ht, hp, worker_self]
          exact ⟨rfl, rfl⟩
        · rw [ht, worker_other (Ne.symm hp)]
          exact ⟨rfl, rfl⟩
      rw [he]
      split
      · have hother : (t.goto w .wait).workers 0 = t.workers 0 := worker_other (Ne.symm hw) _
        refine ⟨rfl, ?_⟩
        rw [hother]
        exact .of_eq ht0.1 ht0.2
      · exact ⟨rfl, .of_eq ht0.1 ht0.2⟩
  · cases hs

/-- **The end of the callback**: worker 0 waits again. -/
theorem called_master (hs : s.step b (.worker 0) = some s') (hc : (s.workers 0).pc = .notify) (h : ThreadsOk s) :
    s'.main = s.main ∧ (s'.workers 0).pc = .wait ∧ Tx.SameReader (s.workers 0).mOutput (s'.workers 0).mOutput ∧
      (s'.workers 0).mOutput.commits = (s.workers 0).mOutput.commits := by
  unfold Threads.step at hs
  simp only at hs
  split at hs
  · simp only [Threads.workerStep, hc, if_true] at hs
    obtain ⟨P, hP, hs⟩ := Option.map_eq_some_iff.1 hs
    have hown : (s.own.workers 0).pc = .notify := hc
    simp only [Pool.workerStep, hown, if_true, Option.some.injEq] at hP
    have hself : s'.workers 0 = (s.workers 0).put (P.workers 0) := by
      rw [← hs]
      exact Function.update_self 0 _ s.workers
    rw [hself]
    refine ⟨by rw [← hs], ?_, (Tx.sameRead_write (h.worker 0).tx _).sameReader, rfl⟩
    rw [← hP]
    change ((s.own.setWorker 0 ((s.own.workers 0).goto .wait)).workers 0).pc = _
    rw [setWorker_self]
    rfl
  · cases hs

theorem wake_master {w : ℕ} (hs : s.step b (.wake w) = some s') :
    s'.main = s.main ∧ MasterMove (s.workers 0) (s'.workers 0) := by
  unfold Threads.step at hs
  simp only at hs
  split at hs
  · rw [← Option.some.inj hs]
    refine ⟨rfl, ?_⟩
    by_cases hw : w = 0
    · subst hw
      rw [worker_self]
      exact .of_eq rfl rfl
    · rw [worker_other (Ne.symm hw)]
      exact .of_eq rfl rfl
  · cases hs

/-- **A step of the main thread in a call** posts to the workers, or loads. -/
theorem main_master (hs : s.step b .main = some s') (hj : ∀ k, s.main.pc ≠ .joining k) :
    ((s'.workers 0).mOutput = (s.workers 0).mOutput ∧ (s'.workers 0).pc = (s.workers 0).pc ∧
        s'.main = { s.main with pc := s'.main.pc }) ∨
      ((s.workers 0).mOutput.reader ≠ .idle ∧ s' = s.loadStep 0 id) := by
  have hs : s.mainStep = some s' := hs
  unfold Threads.mainStep at hs
  have hpost : ∀ {k flags pc}, s.postStep k 0 flags (fun s => s.mainGoto pc) = some s' →
      (s'.workers 0).mOutput = (s.workers 0).mOutput ∧ (s'.workers 0).pc = (s.workers 0).pc ∧
        s'.main = { s.main with pc := s'.main.pc } := by
    intro k flags pc hs
    obtain ⟨E, -, -, -, he⟩ := post_cases hs
    have hT : ((s.setWorker k { s.workers k with mEvents := E }).workers 0).mOutput = (s.workers 0).mOutput ∧
        ((s.setWorker k { s.workers k with mEvents := E }).workers 0).pc = (s.workers 0).pc := by
      by_cases hk : k = 0
      · rw [hk, worker_self]
        exact ⟨rfl, rfl⟩
      · rw [worker_other (Ne.symm hk)]
        exact ⟨rfl, rfl⟩
    rw [he]
    split <;> exact ⟨hT.1, hT.2, rfl⟩
  cases hpc : s.main.pc with
  | idle =>
    simp only [hpc] at hs
    split at hs
    · cases hs
    · rename_i hr
      exact .inr ⟨hr, (Option.some.inj hs).symm⟩
  | posting k =>
    left
    simp only [hpc] at hs
    split at hs
    · exact hpost hs
    · rename_i hk
      simp only [Pool.mainStep, Threads.own, hpc, hk, if_false, Option.map_some, Option.some.injEq] at hs
      rw [← hs]
      exact ⟨rfl, rfl, rfl⟩
  | stopping k =>
    left
    simp only [hpc] at hs
    split at hs
    · exact hpost hs
    · rename_i hk
      simp only [Pool.mainStep, Threads.own, hpc, hk, if_false, Option.map_some, Option.some.injEq] at hs
      rw [← hs]
      exact ⟨rfl, rfl, rfl⟩
  | joining k => exact absurd hpc (hj k)

end ThreadsOk
end Fzx
