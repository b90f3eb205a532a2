import Fzx.AppInv
/-!
# AppInput — from the input and the line to the search

The items of the search are the lines of what was read, but for those that are still to be pushed; what is pushed is
committed, and the query is that of the line, once the tasks at hand are done (`InputOk`).  What is selected are items.
-/
namespace Fzx

open Lib

/-! ## What is to be pushed -/

def Task.pushed : Task → Option Bytes
  | .call (.pushItem str) => some str
  | _ => none

def pushes (todo : List Task) : List Bytes := todo.filterMap Task.pushed

/-- After every push there is a `t`. -/
def Covers (t : Task) (todo : List Task) : Prop :=
  ∀ pre str post, todo = pre ++ .call (.pushItem str) :: post → t ∈ post

theorem pushes_append (l m : List Task) : pushes (l ++ m) = pushes l ++ pushes m := List.filterMap_append

theorem pushes_map (l : List Bytes) : pushes ((l.map Call.pushItem).map Task.call) = l := by
  unfold pushes
  rw [List.map_map, List.filterMap_map]
  exact List.filterMap_some

theorem mem_pushes {todo : List Task} {str : Bytes} : str ∈ pushes todo ↔ .call (.pushItem str) ∈ todo := by
  unfold pushes
  rw [List.mem_filterMap]
  constructor
  · rintro ⟨t, ht, hp⟩
    unfold Task.pushed at hp
    split at hp
    · cases hp
      exact ht
    · cases hp
  · exact fun h => ⟨_, h, rfl⟩

theorem pushes_eq_nil {todo : List Task} (h : ∀ str, .call (.pushItem str) ∉ todo) : pushes todo = [] :=
  List.eq_nil_iff_forall_not_mem.2 (fun str hm => h str (mem_pushes.1 hm))

/-- There is nothing to be pushed while the main loop looks for an event. -/
theorem Looks.pushes {todo : List Task} (h : Looks todo) : pushes todo = [] :=
  pushes_eq_nil (fun _ hm => h.not_now hm trivial)

theorem keysTodo_pushes (out : TermApp.KeysOut) : pushes out.todo = [] :=
  pushes_eq_nil (fun _ hm => by cases keysTodo_call hm)

namespace Covers

variable {t u : Task} {todo l m : List Task}

theorem tail (h : Covers t (u :: todo)) : Covers t todo := fun pre str post he => h (u :: pre) str post (by rw [he]; rfl)

theorem of_pushes (h : pushes todo = []) : Covers t todo := by
  intro pre str post he
  have hm : str ∈ pushes todo := mem_pushes.2 (by rw [he]; exact List.mem_append_right _ List.mem_cons_self)
  rw [h] at hm
  cases hm

/-- Nothing is pushed at the end. -/
theorem append (hm : pushes m = []) (ht : pushes l ≠ [] → t ∈ m) : Covers t (l ++ m) := by
  intro pre str post he
  rcases List.append_eq_append_iff.1 he with ⟨l', rfl, rfl⟩ | ⟨m', rfl, he'⟩
  · have hp : str ∈ pushes (l' ++ .call (.pushItem str) :: post) := mem_pushes.2 (List.mem_append_right _ List.mem_cons_self)
    rw [hm] at hp
    cases hp
  · cases m' with
    | nil =>
      have hp : str ∈ pushes m := mem_pushes.2 (by rw [← show _ = m from he']; exact List.mem_cons_self)
      rw [hm] at hp
      cases hp
    | cons u m' =>
      obtain ⟨rfl, rfl⟩ := List.cons_eq_cons.1 he'
      refine List.mem_append_right _ (ht (fun hnil => ?_))
      have hp : str ∈ pushes (pre ++ .call (.pushItem str) :: m') :=
        mem_pushes.2 (List.mem_append_right _ List.mem_cons_self)
      rw [hnil] at hp
      cases hp

/-- What is put before pushes nothing. -/
theorem prepend (hl : pushes l = []) (h : Covers t m) : Covers t (l ++ m) := by
  intro pre str post he
  rcases List.append_eq_append_iff.1 he with ⟨l', rfl, rfl⟩ | ⟨m', rfl, he'⟩
  · exact h l' str post rfl
  · cases m' with
    | nil => exact h [] str post he'.symm
    | cons u m' =>
      obtain ⟨rfl, rfl⟩ := List.cons_eq_cons.1 he'
      have hp : str ∈ pushes (pre ++ .call (.pushItem str) :: m') :=
        mem_pushes.2 (List.mem_append_right _ List.mem_cons_self)
      rw [hl] at hp
      cases hp

end Covers

/-! ## The scanner -/

/-- A call of `feed` pushes no more lines than it reads bytes. -/
theorem feedLoop_pushed_length (ch : UInt8) (mBuf it : Bytes) (pushed : List Bytes) (count : UInt32) :
    (LineScanner.feedLoop ch mBuf it pushed count).pushed.length ≤ pushed.length + it.length := by
  fun_induction LineScanner.feedLoop ch mBuf it pushed count with
  | case1 mBuf it pushed count line len => exact Nat.le_add_right _ _
  | case3 mBuf it pushed count line len =>
    rename_i ih
    rw [List.length_drop] at ih
    omega
  | _ mBuf it pushed count line len =>
    rename_i hlen _ _ ih
    have hpos : 0 < it.length := by
      have hle : len ≤ it.length := (List.takeWhile_sublist _).length_le
      omega
    rw [List.length_append, List.length_singleton, List.length_drop] at ih
    omega

theorem feed_result_pos {sc : LineScanner} {str : Bytes} {ch : UInt8} (hsc : ch ∉ sc.mBuf) (hstr : str.length < 2 ^ 32) :
    (sc.feed str ch).result > 0 ↔ (sc.feed str ch).pushed ≠ [] := by
  obtain ⟨-, ls, hp, hc⟩ := LineScanner.feedLoop_fed ch [] sc.mBuf str [] 0 (s := sc.mBuf) ⟨hsc, .inl ⟨rfl, rfl⟩⟩
  have hlen := feedLoop_pushed_length ch sc.mBuf str [] 0
  change (sc.feed str ch).pushed.length ≤ _ at hlen
  change (sc.feed str ch).pushed = _ at hp
  change (sc.feed str ch).result = _ at hc
  rw [List.nil_append] at hp
  rw [hp, List.length_nil, Nat.zero_add] at hlen
  rw [hp, hc, UInt32.zero_add, GT.gt, UInt32.lt_iff_toNat_lt, UInt32.toNat_ofNat_of_lt' (by simpa using hlen.trans_lt hstr),
    ← List.length_pos_iff]
  rfl

/-! ## The calls -/

/-- The query of the search is that of `line`. -/
def Searches (m : Main) (line : Bytes) : Prop :=
  m.mQuery.map Shared.val = if (Query.parse line).empty then none else some (Query.parse line)

theorem commit_main (s : Pool) : s.commit.main.mItems = s.main.mItems ∧ s.commit.main.mQuery = s.main.mQuery ∧
    s.commit.main.mJob.mItems.length = s.main.mItems.length := by
  grind [Pool.commit, Pool.renewQueue, Pool.setJob, Pool.nextJob]

theorem setQuery_main (s : Pool) (query : Bytes) : (s.setQuery query).main.mItems = s.main.mItems ∧
    Searches (s.setQuery query).main query ∧ ((s.setQuery query).main.mJob = s.main.mJob ∨
      (s.setQuery query).main.mJob.mItems.length = s.main.mItems.length) := by
  have hwith : ∀ q, (s.withQuery q).main.mItems = s.main.mItems ∧
      (s.withQuery q).main.mQuery.map Shared.val = if q.empty then none else some q := by
    intro q
    unfold Pool.withQuery
    cases q.empty <;> exact ⟨rfl, rfl⟩
  unfold Pool.setQuery Searches
  dsimp only
  split
  · rename_i h
    refine ⟨rfl, ?_, .inl rfl⟩
    rw [Bool.or_eq_true, Bool.and_eq_true, Bool.and_eq_true] at h
    rcases h with ⟨he, hq⟩ | ⟨he, hq⟩
    · rw [if_pos he, Option.isNone_iff_eq_none.1 hq]
      rfl
    · obtain ⟨p, hp, hval⟩ := (Option.any_eq_true _ _).1 hq
      rw [if_neg (by simpa using he), hp, Option.map_some, of_decide_eq_true hval]
  · obtain ⟨hitems, hquery⟩ := hwith (Query.parse query)
    obtain ⟨hitems', hquery', hjob⟩ := commit_main (s.withQuery (Query.parse query))
    exact ⟨hitems'.trans hitems, by rw [hquery', hquery], .inr (hjob.trans (by rw [hitems]))⟩

theorem pushItem_main {s : Pool} {str : Bytes} (h : str ≠ []) :
    (s.pushItem str).main = { s.main with mItems := s.main.mItems ++ [str] } := by
  unfold Pool.pushItem
  rw [if_neg (by simpa using h)]

theorem loadResults_call_main (T : Threads) : (T.call .loadResults).main = T.main := by
  change T.loadResults.main = _
  unfold Threads.loadResults
  split
  · rfl
  · rw [ThreadsOk.loadStep_eq]
    rfl

/-! ## What is selected -/

/-- **What is shown of a query are rows of a job.** -/
theorem row_of_result {b : Build} {s : Pool} (hl : Live s) (hc : ContentInv b s) {res : Results}
    (hres : s.queryResults = some res)
    {m : MatchedItem} (hm : m ∈ res.mItems) : ∃ J ∈ s.main.history, ∃ q, res.mQuery = some q ∧ J.mQuery = some q ∧
      ∃ i < J.mItems.length, matchedItem b J.mItems q.val i = some m ∧ m.index = UInt32.ofNat i := by
  obtain ⟨hres, hsome⟩ := Option.filter_eq_some_iff.1 hres
  unfold Pool.getResults at hres
  rw [if_neg hl.pos.ne'] at hres
  obtain rfl := Option.some.inj hres
  obtain ⟨J, hJ, hstamp, hcomplete⟩ := (hc.buf 0 hl.pos).read
  obtain ⟨q, hq⟩ := Option.isSome_iff_exists.1 hsome
  have hJq : J.mQuery = some q := hstamp.query.symm.trans hq
  obtain ⟨hrows, -⟩ := hcomplete.rows hl (hc.queue J hJ) hJq
  obtain ⟨i, hi, hmi⟩ := List.mem_filterMap.1 (hrows.perm.mem_iff.1 hm)
  refine ⟨J, hJ, q, hq, hJq, i, List.mem_range.1 hi, hmi, ?_⟩
  unfold matchedItem at hmi
  simp only at hmi
  split at hmi
  · exact MatchedItem.index_of_new hmi
  · cases hmi

/-- **What is shown are items.** -/
theorem getResult_index {b : Build} {s : Pool} (hl : Live s) (hc : ContentInv b s) (hqs : Queries s.main) {k : ℕ}
    (hk : k < s.resultsSize) : (s.getResult k).mIndex.toNat < s.main.mItems.length := by
  have hof : ∀ {i n : ℕ}, i < n → (UInt32.ofNat i).toNat < n := by
    intro i n hi
    rw [UInt32.toNat_ofNat']
    exact (Nat.mod_le _ _).trans_lt hi
  unfold Pool.resultsSize at hk
  unfold Pool.getResult
  cases hres : s.queryResults with
  | none =>
    simp only [hres] at hk ⊢
    rw [List.getElem?_eq_getElem hk]
    exact hof hk
  | some res =>
    simp only [hres] at hk ⊢
    rw [List.getElem?_eq_getElem hk]
    obtain ⟨J, hJ, q, -, -, i, hi, -, hindex⟩ := row_of_result hl hc hres (List.getElem_mem hk)
    change res.mItems[k].index.toNat < _
    rw [hindex]
    exact (hof hi).trans_le (hqs.items J hJ).length_le

/-- The items that are selected are below `n`. -/
def Selects (n : ℕ) (t : TermApp) : Prop := ∀ i ∈ t.mSelection, i.toNat < n

section

variable {fzx : Pool} {n : ℕ} (hfzx : ∀ k < fzx.resultsSize, (fzx.getResult k).mIndex.toNat < n)
include hfzx

theorem moveKey_selects {t : TermApp} (h : Selects n t) (key : UInt8) : Selects n (t.moveKey fzx key) := by
  unfold TermApp.moveKey
  split
  · exact h
  · split
    · split <;> exact h
    · split
      · split
        · rename_i hk
          dsimp only
          intro i hi
          change i ∈ (if _ then _ else _) at hi
          split at hi
          · exact h i (Finset.mem_of_mem_erase hi)
          · rcases Finset.mem_insert.1 hi with rfl | hi
            · exact hfzx _ hk
            · exact h i hi
        · exact h
      · exact h

theorem readKeys_selects : ∀ (ks : List UInt8) {t : TermApp} (u : Bool), Selects n t →
    Selects n (TermApp.readKeys fzx ks t u).app
  | [], t, u, h => h
  | key :: ks, t, u, h => by
    unfold TermApp.readKeys
    dsimp only
    split
    · exact readKeys_selects ks true h
    · split
      · exact h
      · split
        · exact readKeys_selects ks true h
        · split
          · exact h
          · exact readKeys_selects ks u (moveKey_selects hfzx h key)

end

/-! ## The invariant -/

/-- The lines of what was read are items, or are to be pushed. -/
def Collected (s : App) : Prop :=
  if s.app.mInput then
    LineScanner.Scanned '\n'.toUInt8 s.read s.app.mLineScanner.mBuf (s.threads.main.mItems ++ pushes s.todo)
  else LineScanner.lines '\n'.toUInt8 s.read = s.threads.main.mItems ++ pushes s.todo ∧ s.app.mLineScanner.mBuf = []

/-- A line is not empty. -/
theorem Collected.ne_nil {s : App} (h : Collected s) {str : Bytes}
    (hm : str ∈ s.threads.main.mItems ++ pushes s.todo) : str ≠ [] := by
  have hlines : ∀ {t : Bytes}, str ∈ LineScanner.lines '\n'.toUInt8 t → str ≠ [] :=
    fun hm => of_decide_eq_true (List.mem_filter.1 hm).2
  unfold Collected at h
  split at h
  · rcases h.carry with ⟨-, hp⟩ | ⟨pre, -, hp⟩
    · rw [hp] at hm
      cases hm
    · exact hlines (hp ▸ hm)
  · exact hlines (h.1 ▸ hm)

structure InputOk (s : App) : Prop where
  items : Collected s
  opened : .processInput ∈ s.todo → s.app.mInput = true
  buffer : s.app.mInputBuffer < 0x80000
  commits : s.threads.main.mJob.mItems.length ≠ s.threads.main.mItems.length → .call .commit ∈ s.todo
  covers : Covers (.call .commit) s.todo
  draws : Covers .redraw s.todo
  query : s.app.mStatus = .running →
    Searches s.threads.main s.app.mLine.mLine ∨ .call (.setQuery s.app.mLine.mLine) ∈ s.todo
  selects : Selects s.threads.main.mItems.length s.app

/-- What most steps leave alone. -/
structure SameInput (s s' : App) : Prop where
  read : s'.read = s.read
  mLineScanner : s'.app.mLineScanner = s.app.mLineScanner
  mInput : s'.app.mInput = s.app.mInput
  mInputBuffer : s'.app.mInputBuffer = s.app.mInputBuffer
  mLine : s'.app.mLine = s.app.mLine
  mSelection : s'.app.mSelection = s.app.mSelection
  mStatus : s'.app.mStatus = .running → s.app.mStatus = .running
  mItems : s'.threads.main.mItems = s.threads.main.mItems
  mJob : s'.threads.main.mJob = s.threads.main.mJob
  mQuery : s'.threads.main.mQuery = s.threads.main.mQuery

namespace InputOk

variable {s s' : App}

theorem same (h : InputOk s) (hs : SameInput s s') (hpushes : pushes s'.todo = pushes s.todo)
    (hcovers : ∀ t, Covers t s.todo → Covers t s'.todo)
    (hopened : .processInput ∈ s'.todo → .processInput ∈ s.todo ∨ s.app.mInput = true)
    (hcommit : .call .commit ∈ s.todo → .call .commit ∈ s'.todo)
    (hquery : ∀ query, .call (.setQuery query) ∈ s.todo → s'.app.mStatus = .running → .call (.setQuery query) ∈ s'.todo) :
    InputOk s' where
  items := by
    unfold Collected
    rw [hs.read, hs.mLineScanner, hs.mInput, hs.mItems, hpushes]
    exact h.items
  opened := fun hm => hs.mInput.trans ((hopened hm).elim h.opened id)
  buffer := by
    rw [hs.mInputBuffer]
    exact h.buffer
  commits := by
    rw [hs.mItems, hs.mJob]
    exact fun hne => hcommit (h.commits hne)
  covers := hcovers _ h.covers
  draws := hcovers _ h.draws
  query := by
    intro hr
    unfold Searches
    rw [hs.mLine, hs.mQuery]
    exact (h.query (hs.mStatus hr)).imp_right (fun hm => hquery _ hm hr)
  selects := by
    unfold Selects
    rw [hs.mSelection, hs.mItems]
    exact h.selects

/-- The tasks are the same. -/
theorem same_todo (h : InputOk s) (hs : SameInput s s') (ht : s'.todo = s.todo) : InputOk s' :=
  h.same hs (by rw [ht]) (ht ▸ fun _ => id) (ht ▸ Or.inl) (ht ▸ id) (ht ▸ fun _ hm _ => hm)

/-- A task that is no call is done. -/
theorem next (h : InputOk s) (hs : SameInput s s') {t : Task} {todo l : List Task} (ht : s.todo = t :: todo)
    (ht' : s'.todo = l ++ todo) (hcall : ∀ c, t ≠ .call c) (hnow : pushes l = [])
    (hopened : .processInput ∈ l → s.app.mInput = true) : InputOk s' := by
  have hmem : ∀ c, .call c ∈ s.todo → .call c ∈ s'.todo := by
    intro c hm
    rw [ht] at hm
    rw [ht']
    exact List.mem_append_right _ ((List.mem_cons.1 hm).resolve_left (fun he => hcall c he.symm))
  have hpush : t.pushed = none := by
    unfold Task.pushed
    split
    · exact absurd rfl (hcall _)
    · rfl
  refine h.same hs ?_ (fun u hcov => ?_) (fun hm => ?_) (hmem _) (fun _ hm _ => hmem _ hm)
  · rw [ht', pushes_append, hnow, List.nil_append, ht]
    exact (List.filterMap_cons_none hpush).symm
  · rw [ht] at hcov
    rw [ht']
    exact hcov.tail.prepend hnow
  · rw [ht'] at hm
    rcases List.mem_append.1 hm with hm | hm
    · exact .inr (hopened hm)
    · rw [ht]
      exact .inl (List.mem_cons_of_mem _ hm)

end InputOk

/-! ## The steps -/

/-- The threads leave it alone. -/
theorem sameInput_threads {s : App} {T : Threads} (hm : T.main = { s.threads.main with pc := T.main.pc }) :
    SameInput s { s with threads := T } where
  read := rfl
  mLineScanner := rfl
  mInput := rfl
  mInputBuffer := rfl
  mLine := rfl
  mSelection := rfl
  mStatus := id
  mItems := (congrArg Main.mItems hm : _)
  mJob := (congrArg Main.mJob hm : _)
  mQuery := (congrArg Main.mQuery hm : _)

theorem SameInput.of_eq {s s' : App} (hr : s'.read = s.read) (ha : s'.app = s.app) (hT : s'.threads = s.threads) :
    SameInput s s' := by
  refine ⟨hr, ?_, ?_, ?_, ?_, ?_, ?_, ?_, ?_, ?_⟩ <;> first | rw [ha] | rw [hT]
  exact id

namespace AppOk

variable {b : Build} {hardwareConcurrency : ℕ} {s s' : App} {a : App.Action}

/-- **What the main thread calls.** -/
theorem inputOk_call (h : AppOk b hardwareConcurrency s) (hi : InputOk s) {c : Call} {todo : List Task} {T : Threads}
    (ht : s.todo = .call c :: todo) (hs : s.threads.step b (.call c) = some T) :
    InputOk { s with threads := T, todo } := by
  obtain ⟨hitems, hopened, hbuffer, hcommits, hcovers, hdraws, hquery, hselects⟩ := hi
  have hT := call_eq hs
  have hmade : c.Made s.app.mLine.mLine := h.tasks.calls c (ht ▸ List.mem_cons_self)
  rw [ht] at hopened hcommits hcovers hdraws hquery
  have hopened' : .processInput ∈ todo → s.app.mInput = true := fun hm => hopened (List.mem_cons_of_mem _ hm)
  have hrest : ∀ {c' : Call}, c ≠ c' → .call c' ∈ Task.call c :: todo → .call c' ∈ todo := by
    intro c' hne hm
    refine (List.mem_cons.1 hm).resolve_left (fun he => hne ?_)
    cases he
    rfl
  cases c with
  | setThreads _ => exact hmade.elim
  | start => exact hmade.elim
  | stop => exact hmade.elim
  | pushItem str =>
    have hstr : str ≠ [] := hitems.ne_nil (by rw [ht]; exact List.mem_append_right _ List.mem_cons_self)
    have hmain : T.main = { s.threads.main with mItems := s.threads.main.mItems ++ [str] } := by
      rw [hT]
      exact pushItem_main (s := s.threads.own) hstr
    have hcat : s.threads.main.mItems ++ pushes s.todo = T.main.mItems ++ pushes todo := by
      rw [hmain, ht]
      exact List.append_cons _ _ _
    refine ⟨?_, hopened', hbuffer, fun _ => hcovers [] str todo rfl, hcovers.tail, hdraws.tail, fun hr => ?_, fun i hi => ?_⟩
    · unfold Collected at hitems ⊢
      rwa [hcat] at hitems
    · refine (hquery hr).imp (fun hq => ?_) (hrest nofun)
      unfold Searches at hq ⊢
      rw [show T.main.mQuery = s.threads.main.mQuery by rw [hmain]]
      exact hq
    · change i.toNat < T.main.mItems.length
      rw [hmain, List.length_append]
      exact (hselects i hi).trans_le (Nat.le_add_right _ _)
  | setQuery query =>
    obtain ⟨hi, hq, hj⟩ := setQuery_main s.threads.own query
    have hmain : T.main = (s.threads.own.setQuery query).main := by rw [hT]; rfl
    rw [← hmain] at hi hq hj
    refine ⟨?_, hopened', hbuffer, fun hne => ?_, hcovers.tail, hdraws.tail, fun _ => .inl ?_, ?_⟩
    · unfold Collected at hitems ⊢
      rw [show T.main.mItems = s.threads.main.mItems from hi]
      rwa [ht] at hitems
    · rcases hj with hj | hj
      · refine hrest nofun (hcommits ?_)
        rwa [show T.main.mJob = s.threads.main.mJob from hj, show T.main.mItems = s.threads.main.mItems from hi] at hne
      · exact absurd (hj.trans (congrArg List.length hi).symm) hne
    · rwa [show query = s.app.mLine.mLine from hmade] at hq
    · unfold Selects
      rw [show T.main.mItems = s.threads.main.mItems from hi]
      exact hselects
  | commit =>
    obtain ⟨hi, hq, hj⟩ := commit_main s.threads.own
    have hmain : T.main = s.threads.own.commit.main := by rw [hT]; rfl
    rw [← hmain] at hi hq hj
    refine ⟨?_, hopened', hbuffer, fun hne => absurd (hj.trans (congrArg List.length hi).symm) hne, hcovers.tail,
      hdraws.tail, fun hr => ?_, ?_⟩
    · unfold Collected at hitems ⊢
      rw [show T.main.mItems = s.threads.main.mItems from hi]
      rwa [ht] at hitems
    · refine (hquery hr).imp (fun h => ?_) (hrest nofun)
      unfold Searches at h ⊢
      rwa [show T.main.mQuery = s.threads.main.mQuery from hq]
    · unfold Selects
      rw [show T.main.mItems = s.threads.main.mItems from hi]
      exact hselects
  | loadResults =>
    have hmain : T.main = s.threads.main := by
      rw [hT]
      exact loadResults_call_main s.threads
    refine ⟨?_, hopened', hbuffer, fun hne => ?_, hcovers.tail, hdraws.tail, fun hr => ?_, ?_⟩
    · unfold Collected at hitems ⊢
      rw [hmain]
      rwa [ht] at hitems
    · rw [hmain] at hne
      exact hrest nofun (hcommits hne)
    · rw [hmain]
      exact (hquery hr).imp_right (hrest nofun)
    · unfold Selects
      rw [hmain]
      exact hselects

/-- The lines of a piece of the input are pushed, and committed if there are any. -/
theorem inputOk_calls (hi : InputOk s) {todo : List Task} {l : List Bytes} {t : TermApp} {p : Prop} [Decidable p] {r : Bytes}
    (ht : s.todo = .processInput :: todo) (htodo : pushes todo = []) (hc : p ↔ l ≠ [])
    (hsame : t.mLine = s.app.mLine ∧ t.mStatus = s.app.mStatus ∧ t.mSelection = s.app.mSelection)
    (hbuffer : t.mInputBuffer < 0x80000) (hopened : .processInput ∈ todo → t.mInput = true)
    (hitems : if t.mInput then LineScanner.Scanned '\n'.toUInt8 r t.mLineScanner.mBuf (s.threads.main.mItems ++ l)
      else LineScanner.lines '\n'.toUInt8 r = s.threads.main.mItems ++ l ∧ t.mLineScanner.mBuf = []) :
    InputOk { s with
      app := t
      todo := (l.map Call.pushItem ++ if p then [Call.commit] else []).map .call ++ [.redraw] ++ todo, read := r } := by
  have hrest : ∀ {c : Call}, .call c ∈ s.todo → .call c ∈ todo := by
    intro _ hm
    rw [ht] at hm
    exact (List.mem_cons.1 hm).resolve_left nofun
  obtain ⟨later, hlater⟩ : ∃ later : List Task, later = (if p then [.call .commit] else []) ++ .redraw :: todo := ⟨_, rfl⟩
  have hsplit : (l.map Call.pushItem ++ if p then [Call.commit] else []).map Task.call ++ [.redraw] ++ todo =
      (l.map Call.pushItem).map Task.call ++ later := by
    rw [hlater]
    split <;> simp
  have hsub : ∀ {u : Task}, u ∈ todo → u ∈ later := by
    intro u hu
    rw [hlater]
    exact List.mem_append_right _ (List.mem_cons_of_mem _ hu)
  have hpushes : pushes later = [] := by
    rw [hlater]
    split <;> exact htodo
  rw [hsplit]
  refine ⟨?_, fun hm => ?_, hbuffer, fun hne => List.mem_append_right _ (hsub (hrest (hi.commits hne))), ?_, ?_,
    fun hr => ?_, ?_⟩
  · unfold Collected
    dsimp only
    rw [pushes_append, pushes_map, hpushes, List.append_nil]
    exact hitems
  · refine hopened ?_
    rcases List.mem_append.1 hm with hm | hm
    · obtain ⟨_, -, he⟩ := List.mem_map.1 hm
      cases he
    · rw [hlater] at hm
      split at hm <;> simpa using hm
  · refine Covers.append hpushes (fun hp => ?_)
    rw [pushes_map] at hp
    rw [hlater, if_pos (hc.2 hp)]
    exact List.mem_cons_self
  · refine Covers.append hpushes (fun _ => ?_)
    rw [hlater]
    exact List.mem_append_right _ List.mem_cons_self
  · have hq := hi.query (hsame.2.1 ▸ hr)
    rw [← hsame.1] at hq
    exact hq.imp_right (fun hm => List.mem_append_right _ (hsub (hrest hm)))
  · unfold Selects
    rw [hsame.2.2]
    exact hi.selects

theorem reads_le (hi : InputOk s) {r : TermApp.Reading} (hr : App.Reads s.app.mInputBuffer r = true) :
    ∀ str, r = .chunk str → str.length ≤ kItemSizeMask.toNat := by
  rintro str rfl
  have hle := (of_decide_eq_true hr).2
  have hbuf := hi.buffer
  have hmask : kItemSizeMask.toNat = 0x1FFFFFF := rfl
  omega

/-- Before a piece of the input is looked at everything was pushed. -/
theorem scanned_items (hi : InputOk s) {todo : List Task} (ht : s.todo = .processInput :: todo) (htodo : pushes todo = []) :
    LineScanner.Scanned '\n'.toUInt8 s.read s.app.mLineScanner.mBuf s.threads.main.mItems := by
  have hin : s.app.mInput = true := hi.opened (ht ▸ List.mem_cons_self)
  have hitems := hi.items
  have hpushes : pushes s.todo = [] := by
    rw [ht]
    exact htodo
  unfold Collected at hitems
  rwa [if_pos hin, hpushes, List.append_nil] at hitems

theorem scanned_chunk {r mBuf : Bytes} {items : List Bytes} (h : LineScanner.Scanned '\n'.toUInt8 r mBuf items)
    (str : Bytes) :
    LineScanner.Scanned '\n'.toUInt8 (r ++ str) (LineScanner.feed { mBuf } str '\n'.toUInt8).scanner.mBuf
      (items ++ (LineScanner.feed { mBuf } str '\n'.toUInt8).pushed) :=
  (LineScanner.feedLoop_fed '\n'.toUInt8 items mBuf str [] 0 (by rwa [List.append_nil])).scanned

theorem lines_eof {r mBuf : Bytes} {items : List Bytes} (h : LineScanner.Scanned '\n'.toUInt8 r mBuf items) :
    LineScanner.lines '\n'.toUInt8 r = items ++ (LineScanner.finalize { mBuf }).pushed := by
  rw [h.lines_eq]
  unfold LineScanner.finalize
  cases mBuf <;> rfl

/-- At most the buffer is read at once, so that no exception is handled. -/
theorem readInput_of_some (hi : InputOk s) {r : TermApp.Reading} (hr : App.Reads s.app.mInputBuffer r = true)
    {out : TermApp.InputOut} (hout : s.app.processInput r = some out) : out = s.app.readInput r := by
  rw [TermApp.processInput_eq (reads_le hi hr)] at hout
  exact (Option.some.inj (Option.ite_none_right_eq_some.1 hout).2).symm

theorem inputOk_input (h : AppOk b hardwareConcurrency s) (hi : InputOk s) {r : TermApp.Reading} {todo : List Task}
    (ht : s.todo = .processInput :: todo) (hr : App.Reads s.app.mInputBuffer r = true) :
    InputOk { s with
      app := (s.app.readInput r).app
      todo := (s.app.readInput r).todo ++ todo
      read := s.read ++ App.bytesOf r } := by
  have hplanned := ht ▸ h.tasks.planned
  have hsub := hplanned.processInput
  have hno : .processInput ∉ todo := fun hm => by simpa using hsub.subset hm
  have htodo : pushes todo = [] := Looks.pushes (.inr (hsub.trans (by simp)))
  have hin : s.app.mInput = true := hi.opened (ht ▸ List.mem_cons_self)
  have hitems := scanned_items hi ht htodo
  cases r with
  | chunk str =>
    have hlt : str.length < 2 ^ 32 := by
      have hle := (of_decide_eq_true hr).2
      have hbuf := hi.buffer
      omega
    refine inputOk_calls hi ht htodo (t := (s.app.readInput (.chunk str)).app)
      (p := (s.app.mLineScanner.feed str '\n'.toUInt8).result > 0) ?_ ⟨rfl, rfl, rfl⟩ ?_ (fun hm => absurd hm hno) ?_
    · exact feed_result_pos hitems.no_sep hlt
    · change (if _ then _ else _) < _
      have hbuf := hi.buffer
      split
      · rename_i hmax
        have hlt : s.app.mInputBuffer < 0x40000 := hmax.2
        have htwice : s.app.mInputBuffer * 2 < 0x80000 := by omega
        exact htwice
      · exact hbuf
    · exact (if_pos hin).mpr (scanned_chunk hitems str)
  | eof =>
    refine inputOk_calls hi ht htodo (t := (s.app.readInput .eof).app) (p := s.app.mLineScanner.finalize.result = true)
      ?_ ⟨rfl, rfl, rfl⟩ (Nat.two_pow_pos 19 : 0 < 2 ^ 19) (fun hm => absurd hm hno) ?_
    · change _ ↔ s.app.mLineScanner.finalize.pushed ≠ []
      unfold LineScanner.finalize
      cases s.app.mLineScanner.mBuf <;> simp
    · rw [if_neg (by exact Bool.false_ne_true)]
      refine ⟨?_, rfl⟩
      change LineScanner.lines _ (s.read ++ []) = _
      rw [List.append_nil, lines_eof hitems]
      rfl
  | error =>
    exact hi.next (l := []) ⟨List.append_nil _, rfl, rfl, rfl, rfl, rfl, id, rfl, rfl, rfl⟩ ht rfl nofun rfl nofun

/-- **A line that ends the program** is one of those read. -/
theorem tooBig_of_none (h : AppOk b hardwareConcurrency s) (hi : InputOk s) {r : TermApp.Reading} {todo : List Task}
    (ht : s.todo = .processInput :: todo) (hr : App.Reads s.app.mInputBuffer r = true)
    (hout : s.app.processInput r = none) :
    ∃ line ∈ LineScanner.lines '\n'.toUInt8 (s.read ++ App.bytesOf r), TermApp.fits line = false := by
  have hplanned := ht ▸ h.tasks.planned
  have htodo : pushes todo = [] := Looks.pushes (.inr (hplanned.processInput.trans (by simp)))
  have hitems := scanned_items hi ht htodo
  rw [TermApp.processInput_eq (reads_le hi hr)] at hout
  have hbig : ¬ ∀ l ∈ s.app.linesOf r, TermApp.fits l = true := by
    intro hall
    rw [if_pos hall] at hout
    cases hout
  push Not at hbig
  obtain ⟨line, hline, hfits⟩ := hbig
  refine ⟨line, ?_, Bool.eq_false_iff.2 hfits⟩
  cases r with
  | chunk str =>
    change line ∈ LineScanner.lines _ (s.read ++ str)
    rw [(scanned_chunk hitems str).lines_eq]
    exact List.mem_append_left _ (List.mem_append_right _ hline)
  | eof =>
    change line ∈ LineScanner.lines _ (s.read ++ [])
    rw [List.append_nil, lines_eof hitems]
    exact List.mem_append_right _ hline
  | error => cases hline

theorem inputOk_keys (h : AppOk b hardwareConcurrency s) (hi : InputOk s) {ks : List UInt8} {todo : List Task} (hf : s.Free)
    (ht : s.todo = .processTTY :: todo) :
    InputOk { s with
      app := (TermApp.readKeys s.fzx ks s.app false).app
      todo := (TermApp.readKeys s.fzx ks s.app false).todo ++ todo } := by
  obtain ⟨hl, hc, hqs⟩ := h.threads.content
  have hread := readKeys_read s.fzx ks s.app false
  have hplanned := ht ▸ h.tasks.planned
  have htodo : pushes todo = [] := Looks.pushes (.inr (hplanned.processTTY.trans (List.sublist_cons_self _ _)))
  have hrest : ∀ {u : Task}, u ≠ .processTTY → u ∈ s.todo → u ∈ todo := by
    intro u hne hm
    rw [ht] at hm
    exact (List.mem_cons.1 hm).resolve_left hne
  have hpushes : pushes s.todo = [] := by
    rw [ht]
    exact htodo
  have hnil : pushes ((TermApp.readKeys s.fzx ks s.app false).todo ++ todo) = [] := by
    rw [pushes_append, keysTodo_pushes]
    exact htodo
  refine ⟨?_, fun hm => ?_, ?_, fun hne => List.mem_append_right _ (hrest nofun (hi.commits hne)), .of_pushes hnil,
    .of_pushes hnil, fun hr => ?_, ?_⟩
  · unfold Collected
    dsimp only
    rw [hread.kept.mInput, hread.kept.mLineScanner, hnil, ← hpushes]
    exact hi.items
  · rw [hread.kept.mInput]
    refine hi.opened ((List.mem_append.1 hm).elim (fun hm => absurd (keysTodo_now _ _ hm) id) (fun hm => ?_))
    rw [ht]
    exact List.mem_cons_of_mem _ hm
  · dsimp only
    rw [hread.kept.mInputBuffer]
    exact hi.buffer
  · have hstatus := hread.status
    have hended : (TermApp.readKeys s.fzx ks s.app false).ended = false := by
      by_contra he
      rw [if_pos (Bool.not_eq_false _ ▸ he)] at hstatus
      exact hstatus hr
    rw [hended] at hstatus
    cases hu : (TermApp.readKeys s.fzx ks s.app false).updateQuery with
    | true =>
      right
      refine List.mem_append_left _ ?_
      unfold TermApp.KeysOut.todo
      rw [hended, hu]
      exact List.mem_cons_self
    | false =>
      dsimp only
      rw [(hread.same hu).2]
      exact (hi.query (hstatus ▸ hr)).imp_right (fun hm => List.mem_append_right _ (hrest nofun hm))
  · refine readKeys_selects (fun k hk => ?_) ks false hi.selects
    have hshown := sameShown_abs hf.busy
    change k < s.threads.own.resultsSize at hk
    change (s.threads.own.getResult k).mIndex.toNat < _
    rw [hshown.resultsSize] at hk
    rw [hshown.getResult]
    exact getResult_index hl hc hqs hk

/-- **What is read gets to the search**, after every step. -/
theorem inputOk (h : AppOk b hardwareConcurrency s) (hi : InputOk s) (hm : AppMove b s a s') (hp : s'.printed = none)
    (ha : s'.aborted = false) : InputOk s' := by
  have hok := h.threads.quiet.ok
  cases hm with
  | worker hc hs =>
    have hmain := (hok.worker_master hs (fun he => hc ⟨he.1, inCallback_iff.2 he.2⟩)).1
    exact hi.same_todo (sameInput_threads (by rw [hmain])) rfl
  | wake hs => exact hi.same_todo (sameInput_threads (by rw [(ThreadsOk.wake_master hs).1])) rfl
  | main _ _ hs =>
    refine hi.same_todo (sameInput_threads ?_) rfl
    rcases ThreadsOk.main_master hs h.threads.not_joining with ⟨-, -, hm⟩ | ⟨-, rfl⟩
    · exact hm
    · rw [ThreadsOk.loadStep_eq]
      rfl
  | called hc _ _ hT =>
    have hmain := (hok.called_master hT (inCallback_iff.1 hc)).1
    have hsame := sameInput_threads (s := s) (T := _) (by rw [hmain])
    exact hi.same_todo ⟨hsame.read, hsame.mLineScanner, hsame.mInput, hsame.mInputBuffer, hsame.mLine, hsame.mSelection, id,
      hsame.mItems, hsame.mJob, hsame.mQuery⟩ rfl
  | consumer _ _ => exact hi.same_todo (.of_eq rfl rfl rfl) rfl
  | callback _ _ _ => exact hi.same_todo (.of_eq rfl rfl rfl) rfl
  | round _ ht _ =>
    refine hi.same (.of_eq rfl rfl rfl) (by rw [ht]; rfl) (fun _ _ => .of_pushes rfl) (by simp) ?_ ?_ <;>
    · rw [ht]
      exact nofun
  | leave _ _ _ hs =>
    obtain ⟨lines, rfl⟩ := leave_eq hs
    cases hp
  | destroy hp' => exact absurd hp (printed_ne_none hp')
  | @signals todo _ ht =>
    rcases processSignals_cases { s with todo } with he | he | he <;> rw [he]
    · have hlooks : Looks s.todo := by
        rw [ht]
        exact (ht ▸ h.tasks.planned).looks id
      exact hi.same ⟨rfl, rfl, rfl, rfl, rfl, rfl, nofun, rfl, rfl, rfl⟩ hlooks.pushes.symm (fun _ _ => .of_pushes rfl) nofun
        (fun hm => absurd trivial (hlooks.not_now hm)) (fun _ hm _ => absurd trivial (hlooks.not_now hm))
    · exact hi.next (l := [.redraw]) ⟨rfl, rfl, rfl, rfl, rfl, rfl, id, rfl, rfl, rfl⟩ ht rfl nofun rfl (by simp)
    · exact hi.next (l := []) (.of_eq rfl rfl rfl) ht rfl nofun rfl nofun
  | @consume todo E _ ht hs =>
    exact hi.next (l := [.call .loadResults, .loaded]) (.of_eq rfl rfl rfl) ht rfl nofun rfl (by simp)
  | call _ ht hs => exact h.inputOk_call hi ht hs
  | @loaded todo _ ht =>
    cases hnew : s.loadedNew with
    | true => exact hi.next (l := [.redraw]) (.of_eq rfl rfl rfl) ht rfl nofun rfl (by simp)
    | false => exact hi.next (l := []) (.of_eq rfl rfl rfl) ht rfl nofun rfl nofun
  | redraw _ ht hs =>
    obtain ⟨hl, hst, hsc, hin, hbuf, hsel⟩ := redraw_eq hs
    exact hi.next (l := []) ⟨rfl, hsc, hin, hbuf, hl, hsel, fun hr => hst ▸ hr, rfl, rfl, rfl⟩ ht rfl nofun rfl nofun
  | @select tty input todo _ ht hin _ =>
    refine hi.next (.of_eq rfl rfl rfl) ht rfl nofun (Looks.pushes (.inr (ready_sublist s tty input))) (fun hm => hin ?_)
    unfold App.ready at hm
    simpa using hm
  | @interrupt todo _ ht => exact hi.next (l := [.signals]) (.of_eq rfl rfl rfl) ht rfl nofun rfl (by simp)
  | keys hf ht => exact h.inputOk_keys hi hf ht
  | input _ ht hr hout =>
    obtain rfl := readInput_of_some hi hr hout
    exact h.inputOk_input hi ht hr
  | abort => cases ha
  | quitSignal => exact hi.same_todo (.of_eq rfl rfl rfl) rfl
  | resize => exact hi.same_todo (.of_eq rfl rfl rfl) rfl

theorem inputOk_init (hardwareConcurrency : ℕ) (winsize : ℕ × ℕ) : InputOk (App.init hardwareConcurrency winsize) where
  items := LineScanner.scanned_init _
  opened := nofun
  buffer := (by decide : 1024 < 0x80000)
  commits := fun hne => absurd rfl hne
  covers := .of_pushes rfl
  draws := .of_pushes rfl
  query := fun _ => .inl rfl
  selects := fun i hi => absurd hi (Finset.notMem_empty i)

end AppOk
end Fzx
