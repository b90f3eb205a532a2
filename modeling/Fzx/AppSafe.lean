import Fzx.AppShown
/-!
# AppSafe — the main thread never fails

No assertion of `matchPositions` fails while a frame is drawn, as the rows shown are matched by the query shown, and what is
selected is an item when it is printed.  So between its calls the main thread can always go on, or waits for an event
(`app_never_fails`).
-/
namespace Fzx

open Lib

/-! ## matchPositions returns -/

theorem backtrace_length (d m : ℕ → Row) (i j : ℕ) (mr : Bool) (marks : List Bool) :
    (backtrace d m i j mr marks).length = marks.length := by
  fun_induction backtrace d m i j mr marks with
  | case1 => rfl
  | case2 =>
    rename_i ih
    rw [ih, List.length_set]
  | case3 =>
    rename_i ih
    exact ih

/-- Whatever the lengths of the texts are. -/
theorem matchPositions_returns (needle haystack : Bytes) {positions : List Bool} (hp : positions.length = haystack.length) :
    ∃ score positions', matchPositions needle haystack (some positions) = some (score, some positions') ∧
      positions'.length = haystack.length := by
  have hany : ¬ (some positions).any (fun p => p.length ≠ haystack.length) = true := by simp [hp]
  unfold matchPositions
  rw [if_neg hany]
  split
  · exact ⟨_, _, rfl, hp⟩
  · dsimp only
    split
    · exact ⟨_, _, rfl, hp⟩
    · split
      · exact ⟨_, _, rfl, by rw [List.length_map, hp]⟩
      · exact ⟨_, _, rfl, by rw [backtrace_length, hp]⟩

namespace Query

/-- **A term that matches returns**, and keeps the size of the vector. -/
theorem matchPositionsStep_returns {b : Build} {s : Bytes} {item : Item} (hm : (!(!item.matches b s ^^ item.mNot)) = true)
    {positions : List Bool} (hp : positions.length = s.length) :
    ∃ positions', matchPositionsStep s positions item = some positions' ∧ positions'.length = s.length := by
  obtain ⟨type, negated, text⟩ := item
  dsimp only at hm
  cases negated with
  | true => exact ⟨positions, rfl, hp⟩
  | false =>
    have hm : Item.matches b ⟨type, false, text⟩ s = true := by simpa using hm
    unfold matchPositionsStep
    dsimp only
    rw [if_neg Bool.false_ne_true]
    cases type with
    | kFuzzy =>
      obtain ⟨score, positions', hrun, hlen⟩ := matchPositions_returns text s hp
      exact ⟨positions', by rw [hrun]; rfl, hlen⟩
    | kSubstr =>
      rcases matchSubstrIndex_cases text s with ⟨k, hindex, hk, -⟩ | ⟨hindex, -⟩
      · have hlen := hk.1
        obtain ⟨positions', hfill, hadds⟩ := fill_forward (hp ▸ hk.1)
        refine ⟨positions', ?_, hadds.1.trans hp⟩
        dsimp only
        rw [if_neg (by omega), hindex, if_neg (by omega), hfill]
      · exact absurd hindex ((matchSubstr_iff_index text s).1 hm)
    | kBegin =>
      have hlen := ((matchBegin_iff text s).1 hm).length_le
      rw [length_lower, length_lower] at hlen
      obtain ⟨positions', hfill, hadds⟩ := @fill_forward positions text.length 0 (by omega)
      refine ⟨positions', ?_, hadds.1.trans hp⟩
      dsimp only
      rw [if_neg (by omega)]
      exact hfill
    | kEnd =>
      have hlen := ((matchEnd_iff text s).1 hm).length_le
      rw [length_lower, length_lower] at hlen
      obtain ⟨positions', hfill, hadds⟩ := @fill_reverse positions text.length (by omega)
      refine ⟨positions', ?_, hadds.1.trans hp⟩
      dsimp only
      rw [if_neg (by omega), hfill]
    | kExact => exact ⟨positions.map (fun _ => true), rfl, by rw [List.length_map, hp]⟩

theorem foldlM_returns {b : Build} {s : Bytes} : ∀ (items : List Item) (positions : List Bool),
    items.all (fun item => !(!item.matches b s ^^ item.mNot)) = true → positions.length = s.length →
    (items.foldlM (matchPositionsStep s) positions).isSome = true
  | [], _, _, _ => rfl
  | item :: items, positions, hm, hp => by
    rw [List.all_cons, Bool.and_eq_true] at hm
    obtain ⟨positions', hstep, hlen⟩ := matchPositionsStep_returns hm.1 hp
    rw [List.foldlM_cons, hstep]
    exact foldlM_returns items positions' hm.2 hlen

/-- **Where the query matches, no assertion fails**, whatever the lengths are. -/
theorem matchPositions_isSome {b : Build} {q : Query} {s : Bytes} (hm : q.match b s = true) (positions : List Bool) :
    (q.matchPositions b s positions).isSome = true := by
  unfold matchPositions
  rw [if_pos hm]
  refine foldlM_returns q.mItems _ hm ?_
  rw [resize, List.take_zero, List.take_nil, List.nil_append, List.length_replicate, List.length_nil, Nat.sub_zero]

end Query
/-! ## Drawing and printing -/

/-- **The query shown matches what is shown.** -/
theorem getResult_match {b : Build} {s : Pool} (hl : Live s) (hc : ContentInv b s) (hqs : Queries s.main)
    (hn : s.main.mItems.length ≤ 2 ^ 32) {q : Shared Query} (hq : s.query = some q) {k : ℕ} (hk : k < s.resultsSize) :
    q.val.match b (s.getResult k).mLine = true := by
  unfold Pool.query at hq
  obtain ⟨res, hres, hrq⟩ := Option.bind_eq_some_iff.1 hq
  unfold Pool.resultsSize at hk
  unfold Pool.getResult
  simp only [hres] at hk ⊢
  rw [List.getElem?_eq_getElem hk]
  obtain ⟨J, hJ, q', hq', -, i, hi, hm, hindex⟩ := row_of_result hl hc hres (List.getElem_mem hk)
  obtain rfl := Option.some.inj (hrq.symm.trans hq')
  have hprefix := hqs.items J hJ
  have hlt : i < 2 ^ 32 := (hi.trans_le hprefix.length_le).trans_le hn
  have hnat : (UInt32.ofNat i).toNat = i := UInt32.toNat_ofNat_of_lt' (by simpa using hlt)
  change q.val.match b (s.main.mItems.getD res.mItems[k].index.toNat []) = true
  obtain ⟨rest, hrest⟩ := hprefix
  rw [hindex, hnat, ← hrest, List.getD_append _ _ _ _ hi]
  exact match_of_matchedItem hm

namespace TermApp

theorem putRow_isSome {b : Build} {fzx : Pool} {t : TermApp} {i : ℕ}
    (h : ∀ q, fzx.query = some q → i < fzx.resultsSize → q.val.match b (fzx.getResult i).mLine = true) :
    (t.putRow b fzx i).isSome = true := by
  unfold putRow
  dsimp only
  split
  · rename_i hi
    rw [Option.isSome_map]
    split
    · rename_i q hq
      exact Query.matchPositions_isSome (h q hq hi) []
    · rfl
  · rfl

/-- **A frame is drawn** where the query matches what is shown. -/
theorem redraw_isSome {b : Build} {fzx : Pool} (t : TermApp)
    (h : ∀ q, fzx.query = some q → ∀ i < fzx.resultsSize, q.val.match b (fzx.getResult i).mLine = true) :
    (t.redraw b fzx).isSome = true := by
  have hrows : ∀ (t : TermApp) (is : List ℕ) (buffer : Bytes),
      (is.foldlM (fun buffer i => (putRow b fzx t i).map (buffer ++ ·)) buffer).isSome = true := by
    intro t is
    induction is with
    | nil => exact fun _ => rfl
    | cons i is ih =>
      intro buffer
      obtain ⟨row, hrow⟩ := Option.isSome_iff_exists.1 (putRow_isSome (t := t) (fun q hq => h q hq i))
      rw [List.foldlM_cons, hrow]
      exact ih (buffer ++ row)
  unfold redraw
  split
  · rfl
  · dsimp only
    rw [Option.isSome_map]
    unfold frame
    rw [Option.isSome_map]
    exact hrows _ _ _

/-- **What is selected can be printed**: the items, in the order of their indices. -/
theorem printSelection_eq {fzx : Pool} {t : TermApp} (h : Selects fzx.main.mItems.length t) :
    t.printSelection fzx =
      some ((t.mSelection.sort (· ≤ ·)).map (fun index => fzx.main.mItems.getD index.toNat [])) := by
  have hsel : ∀ index ∈ t.mSelection.sort (· ≤ ·), index.toNat < fzx.main.mItems.length :=
    fun index hi => h index ((Finset.mem_sort (· ≤ ·)).1 hi)
  unfold printSelection
  generalize t.mSelection.sort (· ≤ ·) = l at hsel ⊢
  induction l with
  | nil => rfl
  | cons index l ih =>
    have hindex := hsel index List.mem_cons_self
    rw [List.mapM_cons, List.getElem?_eq_getElem hindex, ih (fun i hi => hsel i (List.mem_cons_of_mem _ hi)), List.map_cons,
      List.getD_eq_getElem _ _ hindex]
    rfl

end TermApp

/-! ## The main thread -/

/-- What comes next is up to the environment. -/
def Task.Outside : Task → Prop
  | .select | .processTTY | .processInput => True
  | .signals | .consume | .call _ | .loaded | .redraw => False

/-- What the program prints when it ends. -/
def App.result (s : App) : List Bytes :=
  if s.app.mStatus = .exitSuccess then
    if s.app.mSelection = ∅ then [s.app.currentItem s.fzx] else (s.app.printSelection s.fzx).getD []
  else []

theorem AppRuns.leave {b : Build} {hardwareConcurrency : ℕ} {s : App} (h : AppRuns b hardwareConcurrency s) :
    s.leave = some { s with printed := some s.result } := by
  unfold App.leave App.result
  cases s.app.mStatus with
  | exitSuccess =>
    dsimp only
    rw [if_pos rfl]
    split
    · rfl
    · rw [TermApp.printSelection_eq h.input.selects]
      rfl
  | running => rfl
  | exitFailure => rfl

/-- Between its calls the main thread goes on with its first task. -/
theorem mainStep_cons {b : Build} {s : App} (hf : s.Free) {t : Task} {todo : List Task} (ht : s.todo = t :: todo) :
    s.mainStep b = { s with todo }.perform b t := by
  unfold App.mainStep
  rw [if_neg (not_not.2 hf.consumer), if_neg (by simp [hf.busy]), if_neg (by simp [hf.printed])]
  simp only [ht]

theorem mainStep_nil {b : Build} {s : App} (hf : s.Free) (ht : s.todo = []) :
    s.mainStep b = if s.app.mStatus = .running then some { s with todo := [.signals, .select] } else s.leave := by
  unfold App.mainStep
  rw [if_neg (not_not.2 hf.consumer), if_neg (by simp [hf.busy]), if_neg (by simp [hf.printed])]
  simp only [ht]

/-- **A task that is the program's own is done.** -/
theorem AppRuns.perform_isSome {b : Build} {hardwareConcurrency : ℕ} {s : App} (h : AppRuns b hardwareConcurrency s)
    (hf : s.Free)
    (hn : s.fzx.main.mItems.length ≤ 2 ^ 32) {t : Task} (ht : ¬ t.Outside) (todo : List Task) :
    ({ s with todo }.perform b t).isSome = true := by
  cases t with
  | select => exact absurd trivial ht
  | processTTY => exact absurd trivial ht
  | processInput => exact absurd trivial ht
  | signals => rfl
  | loaded => rfl
  | consume =>
    have hstep : EventFd.step s.mEventFd .consume = some { s.mEventFd with consumer := .exchange } := if_pos hf.consumer
    change ((EventFd.step s.mEventFd .consume).map _).isSome = true
    rw [hstep]
    rfl
  | call c =>
    have hstep : s.threads.step b (.call c) = some (s.threads.call c) := if_neg (by simp [hf.busy])
    change ((s.threads.step b (.call c)).map _).isSome = true
    rw [hstep]
    rfl
  | redraw =>
    obtain ⟨hl, hc, hqs⟩ := h.ok.threads.content
    have hshown := sameShown_abs hf.busy
    change ((s.app.redraw b s.fzx).map _).isSome = true
    rw [Option.isSome_map]
    refine TermApp.redraw_isSome s.app (fun q hq i hi => ?_)
    change s.threads.own.query = some q at hq
    change i < s.threads.own.resultsSize at hi
    change q.val.match b (s.threads.own.getResult i).mLine = true
    rw [hshown.query] at hq
    rw [hshown.resultsSize] at hi
    rw [hshown.getResult]
    exact getResult_match hl hc hqs hn hq hi

/-- Only the end prints. -/
theorem perform_printed {b : Build} {s s' : App} (hp : s.printed = none) {t : Task} (hs : s.perform b t = some s') :
    s'.printed = none := by
  cases t with
  | select => cases hs
  | processTTY => cases hs
  | processInput => cases hs
  | signals =>
    rw [← Option.some.inj hs]
    rcases processSignals_cases s with he | he | he <;> rw [he] <;> exact hp
  | loaded =>
    rw [← Option.some.inj hs]
    split <;> exact hp
  | consume =>
    obtain ⟨E, -, rfl⟩ := Option.map_eq_some_iff.1 hs
    exact hp
  | call c =>
    obtain ⟨T, -, rfl⟩ := Option.map_eq_some_iff.1 hs
    exact hp
  | redraw =>
    obtain ⟨app, -, rfl⟩ := Option.map_eq_some_iff.1 hs
    exact hp

/-- The program runs on, or a line it read is longer than an item can be. -/
def Aborts (s : App) : Prop :=
  s.aborted = true → ∃ line ∈ LineScanner.lines '\n'.toUInt8 s.read, TermApp.fits line = false

theorem AppMove.aborted {b : Build} {s s' : App} {a : App.Action} (hm : AppMove b s a s') (ha : s.aborted = false)
    (ha' : s'.aborted = true) : s.Free ∧ ∃ r todo, s.todo = .processInput :: todo ∧ App.Reads s.app.mInputBuffer r = true ∧
      s.app.processInput r = none ∧ s'.read = s.read ++ App.bytesOf r := by
  cases hm with
  | leave _ _ _ hs =>
    obtain ⟨lines, rfl⟩ := leave_eq hs
    cases ha.symm.trans ha'
  | @signals todo _ ht =>
    rcases processSignals_cases { s with todo } with he | he | he <;>
    · rw [he] at ha'
      cases ha.symm.trans ha'
  | abort hf ht hr hout => exact ⟨hf, _, _, ht, hr, hout, rfl⟩
  | _ => cases ha.symm.trans ha'

/-- What is going to be pushed is no longer than an item can be. -/
def PushesFit (s : App) : Prop := ∀ str, .call (.pushItem str) ∈ s.todo → TermApp.fits str = true

/-- The lines that `processInput` pushes fit. -/
theorem processInput_fits {s : App} (hi : InputOk s) {r : TermApp.Reading} (hr : App.Reads s.app.mInputBuffer r = true)
    {out : TermApp.InputOut} (hout : s.app.processInput r = some out) {str : Bytes} (hm : .call (.pushItem str) ∈ out.todo) :
    TermApp.fits str = true := by
  rw [TermApp.processInput_eq (AppOk.reads_le hi hr)] at hout
  split at hout
  · rename_i hfits
    obtain rfl := Option.some.inj hout
    have hmem : Call.pushItem str ∈ (s.app.readInput r).calls := by
      unfold TermApp.InputOut.todo at hm
      rcases List.mem_append.1 hm with hm | hm
      · obtain ⟨c, hc, he⟩ := List.mem_map.1 hm
        cases he
        exact hc
      · split at hm
        · cases List.mem_singleton.1 hm
        · cases hm
    refine hfits str ?_
    cases r with
    | error => cases hmem
    | _ =>
      rcases List.mem_append.1 hmem with hmem | hmem
      · obtain ⟨line, hline, he⟩ := List.mem_map.1 hmem
        cases he
        exact hline
      · split at hmem
        · cases List.mem_singleton.1 hmem
        · cases hmem
  · cases hout

theorem PushesFit.step {b : Build} {s s' : App} {a : App.Action} (h : PushesFit s) (hi : s.Free → InputOk s)
    (hm : AppMove b s a s') : PushesFit s' := by
  -- the tasks that are left, after some that push nothing
  have hnext : ∀ {t : Task} {todo l : List Task}, s.todo = t :: todo → (∀ str, .call (.pushItem str) ∉ l) →
      ∀ str, .call (.pushItem str) ∈ l ++ todo → TermApp.fits str = true := by
    intro t todo l ht hl str hmem
    exact h str (ht ▸ List.mem_cons_of_mem _ ((List.mem_append.1 hmem).resolve_left (hl str)))
  cases hm with
  | round => exact fun str hmem => by simp at hmem
  | leave _ _ _ hs =>
    obtain ⟨lines, rfl⟩ := leave_eq hs
    exact h
  | @signals todo _ ht =>
    rcases processSignals_cases { s with todo } with he | he | he <;> rw [he]
    · exact fun str hmem => by cases hmem
    · exact hnext (l := [.redraw]) ht (by simp)
    · exact hnext (l := []) ht (by simp)
  | consume _ ht _ => exact hnext (l := [.call .loadResults, .loaded]) ht (by simp)
  | call _ ht _ => exact hnext (l := []) ht (by simp)
  | @loaded todo _ ht =>
    cases hnew : s.loadedNew with
    | true => exact hnext (l := [.redraw]) ht (by simp)
    | false => exact hnext (l := []) ht (by simp)
  | redraw _ ht _ => exact hnext (l := []) ht (by simp)
  | select _ ht _ _ =>
    refine hnext ht (fun str hmem => ?_)
    have hready := (ready_sublist _ _ _).subset hmem
    simp at hready
  | interrupt _ ht => exact hnext (l := [.signals]) ht (by simp)
  | keys _ ht => exact hnext ht (fun str hmem => by cases keysTodo_call hmem)
  | input hf ht hr hout =>
    intro str hmem
    rcases List.mem_append.1 hmem with hmem | hmem
    · exact processInput_fits (hi hf) hr hout hmem
    · exact h str (ht ▸ List.mem_cons_of_mem _ hmem)
  | _ => exact h

theorem run_pushesFit {b : Build} {hardwareConcurrency : ℕ} {winsize : ℕ × ℕ} {as : List App.Action} {s : App}
    (hr : run (App.step b) (App.init hardwareConcurrency winsize) as = some s) : Aborts s ∧ PushesFit s := by
  refine (run_inv (fun s => (s.Goes → AppRuns b hardwareConcurrency s) ∧ Aborts s ∧ PushesFit s)
    (fun s a s' h hs => ?_) as _ s ?_ hr).2
  · have ha := aborted_of_step hs
    have hruns : s.Free → AppRuns b hardwareConcurrency s := fun hf => h.1 ⟨hf.printed, ha⟩
    have hm := appMove_cases hs
    refine ⟨fun hg => (h.1 (hg.of_step hs)).step hs hg, fun ha' => ?_, h.2.2.step (fun hf => (hruns hf).input) hm⟩
    obtain ⟨hf, r, todo, ht, hreads, hout, hread⟩ := hm.aborted ha ha'
    rw [hread]
    exact (hruns hf).ok.tooBig_of_none (hruns hf).input ht hreads hout
  · exact ⟨fun _ => .init b hardwareConcurrency winsize, nofun, nofun⟩

/-- **The main thread never fails**: in every state of every run between two calls, it was ended by a line that is longer than
an item can be, or what it pushes fits, and it looks for an event, or it goes on; and where the loop ends it prints its
result.  No assertion fails, and no item is accessed out of range. -/
theorem app_never_fails (b : Build) (hardwareConcurrency : ℕ) (winsize : ℕ × ℕ) (as : List App.Action) (s : App)
    (hrun : run (App.step b) (App.init hardwareConcurrency winsize) as = some s) (hf : s.Free)
    (hn : s.fzx.main.mItems.length ≤ 2 ^ 32) :
    (s.aborted = true ∧ ∃ line ∈ LineScanner.lines '\n'.toUInt8 s.read, TermApp.fits line = false) ∨
      s.aborted = false ∧ (∀ str, .call (.pushItem str) ∈ s.todo → TermApp.fits str = true) ∧
        ((∃ t todo, s.todo = t :: todo ∧ t.Outside) ∨
        (s.todo = [] ∧ s.app.mStatus ≠ .running ∧ s.step b .main = some { s with printed := some s.result }) ∨
        ((s.todo ≠ [] ∨ s.app.mStatus = .running) ∧ ∃ s', s.step b .main = some s' ∧ s'.printed = none)) := by
  by_cases ha : s.aborted = true
  · exact .inl ⟨ha, (run_pushesFit hrun).1 ha⟩
  · have ha := Bool.eq_false_iff.2 ha
    refine .inr ⟨ha, (run_pushesFit hrun).2, ?_⟩
    have h := run_appRuns hrun ⟨hf.printed, ha⟩
    have hstep : s.step b .main = s.mainStep b := if_neg (by rw [ha]; exact Bool.false_ne_true)
    rw [hstep]
    by_cases hnil : s.todo = []
    · right
      by_cases hr : s.app.mStatus = .running
      · exact .inr ⟨.inr hr, _, (mainStep_nil hf hnil).trans (if_pos hr), hf.printed⟩
      · exact .inl ⟨hnil, hr, ((mainStep_nil hf hnil).trans (if_neg hr)).trans h.leave⟩
    · obtain ⟨t, todo, ht⟩ := List.exists_cons_of_ne_nil hnil
      by_cases hout : t.Outside
      · exact .inl ⟨t, todo, ht, hout⟩
      · obtain ⟨s', hs'⟩ := Option.isSome_iff_exists.1 (h.perform_isSome hf hn hout todo)
        have hprinted : s'.printed = none := perform_printed (s := { s with todo }) hf.printed hs'
        exact .inr (.inr ⟨.inl hnil, s', (mainStep_cons hf ht).trans hs', hprinted⟩)

namespace App

theorem ended_isSome : (run (App.step .scalar) (App.init 2 (10, 6))
    (sampleInput ++ sampleKeys ++ [.select true false, .keys [kEnter]])).isSome = true := by decide +kernel

/-- The line found is taken. -/
def ended : App := (run (App.step .scalar) (App.init 2 (10, 6))
    (sampleInput ++ sampleKeys ++ [.select true false, .keys [kEnter]])).get ended_isSome

theorem ended_run : run (App.step .scalar) (App.init 2 (10, 6))
    (sampleInput ++ sampleKeys ++ [.select true false, .keys [kEnter]]) = some ended := (Option.some_get ended_isSome).symm

theorem ended_todo : ended.todo = [] := by decide +kernel

theorem ended_free : ended.Free := ⟨by decide +kernel, by decide +kernel, by decide +kernel⟩

theorem ended_result : ended.result = [[98]] := by decide +kernel

end App

theorem app_never_fails_ended : App.ended.step .scalar .main = some { App.ended with printed := some [[98]] } := by
  rw [← App.ended_result]
  rcases app_never_fails .scalar 2 (10, 6) _ App.ended App.ended_run App.ended_free (by decide +kernel) with
    ⟨ha, -⟩ | ⟨-, -, ⟨t, todo, ht, -⟩ | ⟨-, -, hs⟩ | ⟨hne, -⟩⟩
  · exact absurd ha (by decide +kernel)
  · cases App.ended_todo.symm.trans ht
  · exact hs
  · exact hne.elim (fun hne => absurd App.ended_todo hne) (fun hr => absurd hr (by decide +kernel))

end Fzx
