import Unnest.Proofs.Selector.Joined

/-!
# What a selector list is made of

A comma behind a closed text separates: the items of the two texts around it are
those of each. No other comma does: a text in which each comma is inside of
brackets or a string, or escaped, is a single item. Of a selector nothing but
blanks and commas is outside of its items.
-/

namespace Unnest.Selector

open Text

/-- No comma of the text separates: in front of each, a bracket or a string is
open or a backslash stands alone. -/
def Unbroken (text : List Char) : Prop :=
  ∀ before behind, text = before ++ ',' :: behind → isClosed before = false

def IsGap (text : List Char) : Prop :=
  ∀ c ∈ text, isBlank c = true ∨ c = ','

/-- The items stand in the text one behind the other, and the comma behind each
but the last stands behind a closed text. No comma inside of an item does, and all
outside of the items are blanks and commas. -/
inductive Strewn : (text : List Char) → (items : List (List Char)) → Prop
  | gap {gap : List Char} : IsGap gap → Strewn gap []
  | last {gap item blanks : List Char} :
      IsGap gap → Unbroken item → (∀ c ∈ blanks, isBlank c = true) →
        Strewn (gap ++ (item ++ blanks)) [item]
  | cons {gap item blanks rest : List Char} {items : List (List Char)} :
      IsGap gap → Unbroken item → (∀ c ∈ blanks, isBlank c = true) →
        isClosed (item ++ blanks) = true → Strewn rest items →
          Strewn (gap ++ (item ++ (blanks ++ ',' :: rest))) (item :: items)

theorem unbroken_iff_uncut {text : List Char} : Unbroken text ↔ (cut {} text).2 = [] := by
  constructor
  · intro h
    rcases cut_cases {} text with huncut | ⟨first, rest, heq, -, hclosed, -⟩
    · exact huncut
    · have hopen := h first rest heq
      rw [isClosed, hclosed] at hopen
      cases hopen
  · intro huncut before behind heq
    rw [← Bool.not_eq_true]
    intro hclosed
    rw [heq, cut_append_comma (eq_of_beq hclosed)] at huncut
    exact List.cons_ne_nil _ _ (List.append_eq_nil_iff.mp huncut).2

instance : DecidablePred Unbroken :=
  fun _ => decidable_of_iff _ unbroken_iff_uncut.symm

private theorem isGap_of_blanks {blanks : List Char} (h : ∀ c ∈ blanks, isBlank c = true) :
    IsGap blanks :=
  fun c hc => .inl (h c hc)

private theorem IsGap.append {gap gap' : List Char} (h : IsGap gap) (h' : IsGap gap') :
    IsGap (gap ++ gap') :=
  List.forall_mem_append.mpr ⟨h, h'⟩

private theorem Strewn.behind_gap {gap text : List Char} {items : List (List Char)}
    (h : Strewn text items) (hgap : IsGap gap) : Strewn (gap ++ text) items := by
  cases h with
  | gap h => exact .gap (hgap.append h)
  | last h hitem hblanks =>
      rw [← List.append_assoc]
      exact .last (hgap.append h) hitem hblanks
  | cons h hitem hblanks hclosed hrest =>
      rw [← List.append_assoc]
      exact .cons (hgap.append h) hitem hblanks hclosed hrest

/-! ## Items and what is around them -/

private theorem itemTexts_of_segments {text segment : List Char} {others : List (List Char)}
    (h : segments text = segment :: others) :
    itemTexts text =
      if trim segment = [] then (others.map trim).filter (· ≠ [])
      else trim segment :: (others.map trim).filter (· ≠ []) := by
  rw [itemTexts, h, List.map_cons]
  split
  · next hnil => rw [List.filter_cons_of_neg (by simpa using hnil)]
  · next hne => rw [List.filter_cons_of_pos (by simpa using hne)]

private theorem segments_of_uncut {text : List Char} (h : (cut {} text).2 = []) :
    segments text = [text] := by
  rw [segments, h, cut_fst_of_uncut h]

private theorem Strewn.cons_trim {first rest : List Char} {items : List (List Char)}
    (huncut : (cut {} first).2 = []) (hclosed : ({} : Scan).after first = {})
    (hrest : Strewn rest items) : Strewn (first ++ ',' :: rest) (trim first :: items) := by
  obtain ⟨before, after, hsplit, hbefore, hafter⟩ := exists_blanks_trim first
  have hitem : isClosed (trim first ++ after) = true := by
    rw [hsplit, Scan.after_append, Scan.after_blanks hbefore] at hclosed
    rw [isClosed, hclosed]
    rfl
  have hcons := Strewn.cons (isGap_of_blanks hbefore)
    (unbroken_iff_uncut.mpr (uncut_trim huncut)) hafter hitem hrest
  rwa [← List.append_assoc (trim first), ← List.append_assoc before, ← hsplit] at hcons

private theorem strewn_of_uncut {text : List Char} (huncut : (cut {} text).2 = []) :
    Strewn text (itemTexts text) := by
  rw [itemTexts_of_segments (segments_of_uncut huncut)]
  split
  · next hnil => exact .gap (isGap_of_blanks (isBlank_of_trim_eq_nil hnil))
  · obtain ⟨before, after, hsplit, hbefore, hafter⟩ := exists_blanks_trim text
    have hlast := Strewn.last (isGap_of_blanks hbefore)
      (unbroken_iff_uncut.mpr (uncut_trim huncut)) hafter
    rwa [← hsplit] at hlast

private theorem strewn_itemTexts (text : List Char) : Strewn text (itemTexts text) := by
  rcases cut_cases {} text with huncut | ⟨first, rest, heq, huncut, hclosed, hcut⟩
  · exact strewn_of_uncut huncut
  · have hsegments : segments text = first :: segments rest := by
      rw [segments, hcut]
    have hshorter : rest.length < text.length := by
      rw [heq, List.length_append, List.length_cons]
      omega
    have hrest := strewn_itemTexts rest
    rw [itemTexts_of_segments hsegments, heq]
    split
    · next hnil =>
        have hgap : IsGap (first ++ [',']) :=
          (isGap_of_blanks (isBlank_of_trim_eq_nil hnil)).append (by simp [IsGap])
        have hbehind := hrest.behind_gap hgap
        rwa [List.append_assoc, List.singleton_append] at hbehind
    · exact hrest.cons_trim huncut hclosed
termination_by text.length

private theorem items_append_comma {selector : String} (h : isClosed selector.toList = true)
    (rest : String) : items (selector ++ "," ++ rest) = items selector ++ items rest := by
  have htext : (selector ++ "," ++ rest).toList = selector.toList ++ ',' :: rest.toList := by simp
  rw [items_eq, htext, itemTexts, segments_append_comma (eq_of_beq h), List.map_append,
    List.filter_append, List.map_append]
  rfl

private theorem items_of_unbroken {selector : String} (h : Unbroken selector.toList) :
    items selector =
      if trim selector.toList = [] then [] else [String.ofList (trim selector.toList)] := by
  rw [items_eq, itemTexts_of_segments (segments_of_uncut (unbroken_iff_uncut.mp h))]
  split <;> rfl

private theorem items_of_mem_items {selector item : String} (h : item ∈ items selector) :
    items item = [item] := by
  rw [items_eq_iff, List.map_singleton, (proper_of_mem_items h).itemTexts_eq_singleton_iff]
  exact uncut_of_mem_items h

/-- A list is cut at the commas behind closed texts and at no others, and nothing else
of it is lost than blanks and commas. Its items are trimmed, not empty, and not cut again. -/
theorem items_cut_at_commas (selector : String) :
    (isClosed selector.toList = true →
        ∀ rest, items (selector ++ "," ++ rest) = items selector ++ items rest) ∧
      (Unbroken selector.toList →
        items selector =
          if trim selector.toList = [] then [] else [String.ofList (trim selector.toList)]) ∧
      (∀ item ∈ items selector, item ≠ "" ∧ Trimmed item.toList ∧ items item = [item]) ∧
      Strewn selector.toList ((items selector).map String.toList) := by
  refine ⟨items_append_comma, items_of_unbroken, fun item hitem => ?_, ?_⟩
  · exact ⟨ne_empty_of_mem_items hitem, trimmed_of_mem_items hitem, items_of_mem_items hitem⟩
  · rw [← items_eq_iff.mp rfl]
    exact strewn_itemTexts selector.toList

/-- The comma behind the list separates, the escaped one, that in the brackets and
that in the string do not. -/
theorem items_cut_at_commas_mixedList :
    isClosed "a\\, , :is(b, c),,[d=\",\"]".toList = true ∧
      items ("a\\, , :is(b, c),,[d=\",\"]" ++ "," ++ "e(,\\") =
        ["a\\,", ":is(b, c)", "[d=\",\"]"] ++ ["e(,\\"] ∧
      Unbroken " a\\,:is(b, c)[d=\",\"] ".toList ∧
      items " a\\,:is(b, c)[d=\",\"] " = ["a\\,:is(b, c)[d=\",\"]"] ∧
      ":is(b, c)" ∈ items "a\\, , :is(b, c),,[d=\",\"]" ∧ items ":is(b, c)" = [":is(b, c)"] := by
  have hclosed : isClosed "a\\, , :is(b, c),,[d=\",\"]".toList = true := by decide +kernel
  have hitems : items "a\\, , :is(b, c),,[d=\",\"]" = ["a\\,", ":is(b, c)", "[d=\",\"]"] := by
    decide +kernel
  have hrest : items "e(,\\" = ["e(,\\"] := by decide +kernel
  have hunbroken : Unbroken " a\\,:is(b, c)[d=\",\"] ".toList := by decide +kernel
  obtain ⟨hcut, -, hitem, -⟩ := items_cut_at_commas "a\\, , :is(b, c),,[d=\",\"]"
  obtain ⟨-, hkept, -⟩ := items_cut_at_commas " a\\,:is(b, c)[d=\",\"] "
  have hmem : ":is(b, c)" ∈ items "a\\, , :is(b, c),,[d=\",\"]" := by simp [hitems]
  refine ⟨hclosed, ?_, hunbroken, (hkept hunbroken).trans (by decide +kernel), hmem,
    (hitem _ hmem).2.2⟩
  rw [hcut hclosed, hitems, hrest]

end Unnest.Selector
