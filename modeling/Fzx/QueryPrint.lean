import Fzx.QueryMatch
/-!
# QueryPrint — queries written back as strings

`print` renders a list of items as terms joined by single spaces.  A text that does not collide with the sigils of its
kind (`Printable`) is read back from its term (`parse_print`), and `parse` produces no others (`printable_parse`).
-/
namespace Fzx
namespace Query

open Lib

def Item.printText (item : Item) : Bytes :=
  match item.mType with
  | .kFuzzy => item.mText
  | .kSubstr => '\''.toUInt8 :: item.mText
  | .kBegin => '^'.toUInt8 :: item.mText
  | .kEnd => item.mText ++ ['$'.toUInt8]
  | .kExact => '^'.toUInt8 :: (item.mText ++ ['$'.toUInt8])

def Item.print (item : Item) : Bytes := if item.mNot then '!'.toUInt8 :: item.printText else item.printText

def print (items : List Item) : Bytes := [kSeparator].intercalate (items.map Item.print)

/-- The text is one term's, and its ends are not read as the sigils that the item's kind leaves out. -/
structure Item.Printable (item : Item) : Prop where
  text_ne : item.mText ≠ []
  no_sep : kSeparator ∉ item.mText
  front : item.mType = .kFuzzy ∨ item.mType = .kEnd →
    item.mText.head? ≠ some '\''.toUInt8 ∧ item.mText.head? ≠ some '^'.toUInt8 ∧
      (item.mNot = false → item.mText.head? ≠ some '!'.toUInt8)
  back : item.mType = .kFuzzy ∨ item.mType = .kBegin → item.mText.getLast? ≠ some '$'.toUInt8

/-! ## A term adds to the items before it -/

theorem add_mItems (q : Query) (text : Bytes) (type : MatchType) (negated : Bool) :
    (q.add text type negated).mItems = q.mItems ++ [⟨type, negated, text⟩] := rfl

theorem parseSigils_mItems (q : Query) (r : Bytes) (negated : Bool) :
    (q.parseSigils r negated).mItems = q.mItems ++ (parseSigils {} r negated).mItems := by
  simp only [parseSigils, apply_ite Query.mItems, add_mItems, List.nil_append]
  split_ifs <;> simp only [List.append_nil]

theorem parseSubstr_mItems (q : Query) (t : Bytes) :
    (q.parseSubstr t).mItems = q.mItems ++ (parseSubstr {} t).mItems := by
  simp only [parseSubstr, apply_ite Query.mItems]
  split_ifs
  · exact (List.append_nil _).symm
  · exact parseSigils_mItems q _ _
  · exact parseSigils_mItems q _ _

theorem foldl_parseSubstr_mItems : ∀ (ts : List Bytes) (q : Query),
    (ts.foldl parseSubstr q).mItems = q.mItems ++ ts.flatMap (fun t => (parseSubstr {} t).mItems)
  | [], q => (List.append_nil _).symm
  | t :: ts, q => by
    rw [List.foldl_cons, foldl_parseSubstr_mItems ts, parseSubstr_mItems, List.flatMap_cons, List.append_assoc]

/-- **The items of a query are those of its terms**, in order. -/
theorem parse_mItems (s : Bytes) :
    (parse s).mItems = (words kSeparator [] s).flatMap (fun t => (parseSubstr {} t).mItems) := by
  rw [parse_eq_foldl, foldl_parseSubstr_mItems, List.nil_append]

/-! ## What a term adds is printable -/

theorem head?_dropLast : ∀ {r : Bytes}, 1 < r.length → r.dropLast.head? = r.head?
  | _ :: _ :: _, _ => rfl

theorem getLast?_cons_of_ne_nil (c : UInt8) : ∀ {r : Bytes}, r ≠ [] → (c :: r).getLast? = r.getLast?
  | _ :: _, _ => List.getLast?_cons_cons

theorem printable_parseSigils {r : Bytes} {negated : Bool} (hne : r ≠ []) (hsep : kSeparator ∉ r)
    (hneg : negated = false → r.head? ≠ some '!'.toUInt8) :
    ∀ item ∈ (parseSigils {} r negated).mItems, item.Printable := by
  have htail : (r.drop 1).take (r.length - 1) = r.tail := by
    rw [List.drop_one, List.take_of_length_le (by rw [List.length_tail])]
  intro item hitem
  rw [parseSigils] at hitem
  by_cases hsub : r.head? = some '\''.toUInt8
  · rw [if_pos hsub] at hitem
    by_cases hlen : r.length > 1
    · rw [if_pos hlen, htail, add_mItems, List.nil_append, List.mem_singleton] at hitem
      subst hitem
      exact ⟨List.ne_nil_of_length_pos (by rw [List.length_tail]; omega),
        fun h => hsep (List.mem_of_mem_tail h), by simp, by simp⟩
    · rw [if_neg hlen] at hitem
      cases hitem
  rw [if_neg hsub] at hitem
  by_cases hbegin : r.head? = some '^'.toUInt8
  · by_cases hend : r.getLast? = some '$'.toUInt8
    · rw [if_pos ⟨hbegin, hend⟩] at hitem
      by_cases hlen : r.length > 2
      · have htext : (r.drop 1).take (r.length - 2) = r.tail.dropLast := by
          rw [List.drop_one, List.dropLast_eq_take, List.length_tail, Nat.sub_sub]
        rw [if_pos hlen, htext, add_mItems, List.nil_append, List.mem_singleton] at hitem
        subst hitem
        exact ⟨List.ne_nil_of_length_pos (by rw [List.length_dropLast, List.length_tail]; omega),
          fun h => hsep (List.mem_of_mem_tail (List.mem_of_mem_dropLast h)), by simp, by simp⟩
      · rw [if_neg hlen] at hitem
        cases hitem
    · rw [if_neg (fun h => hend h.2), if_pos hbegin] at hitem
      by_cases hlen : r.length > 1
      · rw [if_pos hlen, htail, add_mItems, List.nil_append, List.mem_singleton] at hitem
        subst hitem
        have htail_ne : r.tail ≠ [] := List.ne_nil_of_length_pos (by rw [List.length_tail]; omega)
        have hlast : r.tail.getLast? ≠ some '$'.toUInt8 := by
          rwa [← getLast?_cons_of_ne_nil (r.head hne) htail_ne, List.cons_head_tail hne]
        exact ⟨htail_ne, fun h => hsep (List.mem_of_mem_tail h), by simp, fun _ => hlast⟩
      · rw [if_neg hlen] at hitem
        cases hitem
  rw [if_neg (fun h => hbegin h.1), if_neg hbegin] at hitem
  by_cases hend : r.getLast? = some '$'.toUInt8
  · rw [if_pos hend] at hitem
    by_cases hlen : r.length > 1
    · rw [if_pos hlen, ← List.dropLast_eq_take, add_mItems, List.nil_append, List.mem_singleton] at hitem
      subst hitem
      have hhead := head?_dropLast hlen
      exact ⟨List.ne_nil_of_length_pos (by rw [List.length_dropLast]; omega),
        fun h => hsep (List.mem_of_mem_dropLast h),
        fun _ => ⟨hhead ▸ hsub, hhead ▸ hbegin, fun h => hhead ▸ hneg h⟩, by simp⟩
    · rw [if_neg hlen] at hitem
      cases hitem
  · rw [if_neg hend, add_mItems, List.nil_append, List.mem_singleton] at hitem
    subst hitem
    exact ⟨hne, hsep, fun _ => ⟨hsub, hbegin, hneg⟩, fun _ => hend⟩

theorem printable_parseSubstr {t : Bytes} (hne : t ≠ []) (hsep : kSeparator ∉ t) :
    ∀ item ∈ (parseSubstr {} t).mItems, item.Printable := by
  intro item hitem
  rw [parseSubstr] at hitem
  by_cases hneg : t.head? = some '!'.toUInt8
  · simp only [hneg, decide_true, if_true, List.drop_one] at hitem
    by_cases hemp : t.tail = []
    · rw [if_pos (by rw [hemp]; rfl)] at hitem
      cases hitem
    · rw [if_neg (by simpa using hemp)] at hitem
      exact printable_parseSigils hemp (fun h => hsep (List.mem_of_mem_tail h)) (fun h => by cases h) item hitem
  · simp only [hneg, decide_false, Bool.false_eq_true, if_false] at hitem
    exact printable_parseSigils hne hsep (fun _ => hneg) item hitem

/-- **`parse` makes printable items only.** -/
theorem printable_parse (s : Bytes) : ∀ item ∈ (parse s).mItems, item.Printable := by
  intro item hitem
  rw [parse_mItems] at hitem
  obtain ⟨t, ht, hitem⟩ := List.mem_flatMap.1 hitem
  have hw := mem_terms.1 ht
  exact printable_parseSubstr hw.1 hw.2.1 item hitem

/-! ## A printable item is read back from its term -/

theorem parseSigils_printText {item : Item} (h : item.Printable) :
    (parseSigils {} item.printText item.mNot).mItems = [item] := by
  obtain ⟨type, negated, text⟩ := item
  obtain ⟨hne, -, hfront, hback⟩ := h
  dsimp only at hne hfront hback ⊢
  have hpos : 0 < text.length := List.length_pos_iff.2 hne
  cases type with
  | kFuzzy =>
    obtain ⟨hsub, hbegin, -⟩ := hfront (.inl rfl)
    have hend := hback (.inl rfl)
    rw [Item.printText, parseSigils, if_neg hsub, if_neg (fun h => hbegin h.1), if_neg hbegin, if_neg hend]
    rfl
  | kSubstr =>
    have hlen : ('\''.toUInt8 :: text).length > 1 := by rw [List.length_cons]; omega
    rw [Item.printText, parseSigils, if_pos List.head?_cons, if_pos hlen, add_mItems, List.drop_one, List.tail_cons,
      List.length_cons, Nat.add_sub_cancel, List.take_length]
    rfl
  | kBegin =>
    have hlen : ('^'.toUInt8 :: text).length > 1 := by rw [List.length_cons]; omega
    have hend : ('^'.toUInt8 :: text).getLast? ≠ some '$'.toUInt8 := by
      rw [getLast?_cons_of_ne_nil _ hne]
      exact hback (.inr rfl)
    rw [Item.printText, parseSigils, if_neg (by rw [List.head?_cons]; decide), if_neg (fun h => hend h.2),
      if_pos List.head?_cons, if_pos hlen, add_mItems, List.drop_one, List.tail_cons, List.length_cons,
      Nat.add_sub_cancel, List.take_length]
    rfl
  | kEnd =>
    obtain ⟨hsub, hbegin, -⟩ := hfront (.inr rfl)
    have hlen : (text ++ ['$'.toUInt8]).length > 1 := by rw [List.length_append, List.length_singleton]; omega
    have hhead : (text ++ ['$'.toUInt8]).head? = text.head? := List.head?_append_of_ne_nil _ hne
    rw [Item.printText, parseSigils, if_neg (hhead ▸ hsub), if_neg (fun h => hbegin (hhead ▸ h.1)),
      if_neg (hhead ▸ hbegin), if_pos List.getLast?_concat, if_pos hlen, add_mItems, List.length_append,
      List.length_singleton, Nat.add_sub_cancel, List.take_left]
    rfl
  | kExact =>
    have hlen : ('^'.toUInt8 :: (text ++ ['$'.toUInt8])).length > 2 := by
      rw [List.length_cons, List.length_append, List.length_singleton]
      omega
    have hlast : ('^'.toUInt8 :: (text ++ ['$'.toUInt8])).getLast? = some '$'.toUInt8 := by
      rw [← List.cons_append, List.getLast?_concat]
    rw [Item.printText, parseSigils, if_neg (by rw [List.head?_cons]; decide), if_pos ⟨List.head?_cons, hlast⟩,
      if_pos hlen, add_mItems, List.drop_one, List.tail_cons, List.length_cons, List.length_append, List.length_singleton,
      show text.length + 1 + 1 - 2 = text.length by omega, List.take_left]
    rfl

theorem printText_ne_nil {item : Item} (h : item.Printable) : item.printText ≠ [] := by
  obtain ⟨type, negated, text⟩ := item
  cases type <;> simp [Item.printText, h.text_ne]

/-- A positive item's term does not start with the negation's sigil. -/
theorem head?_printText {item : Item} (h : item.Printable) (hneg : item.mNot = false) :
    item.printText.head? ≠ some '!'.toUInt8 := by
  obtain ⟨type, negated, text⟩ := item
  cases type with
  | kFuzzy => exact (h.front (.inl rfl)).2.2 hneg
  | kSubstr => exact fun h => absurd h (by rw [Item.printText, List.head?_cons]; decide)
  | kBegin => exact fun h => absurd h (by rw [Item.printText, List.head?_cons]; decide)
  | kEnd =>
    rw [Item.printText, List.head?_append_of_ne_nil _ h.text_ne]
    exact (h.front (.inr rfl)).2.2 hneg
  | kExact => exact fun h => absurd h (by rw [Item.printText, List.head?_cons]; decide)

/-- **A printable item is read back from its term.** -/
theorem parseSubstr_print {item : Item} (h : item.Printable) : (parseSubstr {} item.print).mItems = [item] := by
  rw [parseSubstr, Item.print]
  by_cases hneg : item.mNot = true
  · have hsig := parseSigils_printText h
    rw [hneg] at hsig
    simp only [if_pos hneg, List.head?_cons, decide_true, if_true, List.drop_one, List.tail_cons,
      if_neg (show ¬ item.printText.isEmpty = true by simpa using printText_ne_nil h), hsig]
  · have hfalse : item.mNot = false := by simpa using hneg
    have hsig := parseSigils_printText h
    rw [hfalse] at hsig
    simp only [if_neg hneg, head?_printText h hfalse, decide_false, Bool.false_eq_true, if_false, hsig]

theorem print_ne_nil {item : Item} (h : item.Printable) : item.print ≠ [] := by
  rw [Item.print]
  split
  · exact List.cons_ne_nil _ _
  · exact printText_ne_nil h

theorem sep_not_mem_print {item : Item} (h : item.Printable) : kSeparator ∉ item.print := by
  have hsig : kSeparator ≠ '!'.toUInt8 ∧ kSeparator ≠ '\''.toUInt8 ∧ kSeparator ≠ '^'.toUInt8 ∧
      kSeparator ≠ '$'.toUInt8 := by decide
  have htext : kSeparator ∉ item.printText := by
    obtain ⟨type, negated, text⟩ := item
    cases type <;> simp [Item.printText, hsig, h.no_sep]
  rw [Item.print]
  split
  · simp [hsig, htext]
  · exact htext

/-- **Printing a query and parsing it again is the identity.** -/
theorem parse_print {items : List Item} (h : ∀ item ∈ items, item.Printable) : (parse (print items)).mItems = items := by
  have hwords : words kSeparator [] (print items) = items.map Item.print := by
    refine words_intercalate (fun t ht => ?_)
    obtain ⟨item, hitem, rfl⟩ := List.mem_map.1 ht
    exact ⟨print_ne_nil (h item hitem), sep_not_mem_print (h item hitem)⟩
  rw [parse_mItems, hwords, List.flatMap_map]
  calc items.flatMap (fun item => (parseSubstr {} item.print).mItems)
      = items.flatMap (fun item => [item]) := List.flatMap_congr (fun item hitem => parseSubstr_print (h item hitem))
    _ = items := List.flatMap_singleton' items

/-- **Parsed queries have non-empty texts without spaces and survive printing**, and so does every list of items whose
texts do not collide with the sigils. -/
theorem parse_print_parse (s : Bytes) (items : List Item) (h : ∀ item ∈ items, item.Printable) :
    (∀ item ∈ (parse s).mItems, item.mText ≠ [] ∧ kSeparator ∉ item.mText) ∧
      parse (print (parse s).mItems) = parse s ∧ (parse (print items)).mItems = items := by
  have hparse := printable_parse s
  exact ⟨fun item hitem => ⟨(hparse item hitem).text_ne, (hparse item hitem).no_sep⟩,
    congrArg Query.mk (parse_print hparse), parse_print h⟩

/-- Texts made of sigils, in the terms `!^!a` and `$$`. -/
theorem parse_print_parse_sigils :
    (parse (print [⟨.kBegin, true, [33, 97]⟩, ⟨.kEnd, false, [36]⟩])).mItems
      = [⟨.kBegin, true, [33, 97]⟩, ⟨.kEnd, false, [36]⟩] := by
  refine (parse_print_parse [97, 36, 36] _ (fun item hitem => ?_)).2.2
  rcases List.mem_cons.1 hitem with rfl | hitem
  · exact ⟨by decide, by decide, by decide, by decide⟩
  · obtain rfl := List.mem_singleton.1 hitem
    exact ⟨by decide, by decide, by decide, by decide⟩

end Query
end Fzx
