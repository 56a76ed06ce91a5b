import Mathlib.Data.List.Basic
import Unnest.Proofs.Selector.Whole

/-!
# Joined selectors that come apart again

Selectors are the items of the text that joins them exactly if each of them is a
single item by itself and each but the last is closed, so that the comma behind
it separates. For one that is cut begins a shorter item, and one that is not
closed takes the comma behind it into its own.
-/

namespace Unnest.Selector

open Text

/-! ## Joining -/

theorem forall_intercalate {P : List Char → Prop}
    (hjoin : ∀ {text rest}, P text → P rest → P (text ++ ',' :: ' ' :: rest))
    {text : List Char} {texts : List (List Char)} (h : ∀ other ∈ text :: texts, P other) :
    P ([',', ' '].intercalate (text :: texts)) := by
  induction texts generalizing text with
  | nil =>
      rw [List.intercalate_singleton]
      exact h text List.mem_cons_self
  | cons next texts ih =>
      rw [List.intercalate_cons_cons, List.append_assoc]
      exact hjoin (h text List.mem_cons_self)
        (ih fun other hother => h other (List.mem_cons_of_mem _ hother))

theorem toList_intercalate_cons (selector : String) (selectors : List String) :
    (", ".intercalate (selector :: selectors)).toList =
      [',', ' '].intercalate (selector.toList :: selectors.map String.toList) := by
  rw [String.toList_intercalate, List.map_cons]
  rfl

/-! ## Solid texts -/

structure Solid (text : List Char) : Prop where
  trimmed : Trimmed text
  ne_nil : text ≠ []

theorem Solid.append {text rest : List Char} (h : Solid text)
    (hrest : ∀ c, rest.getLast? = some c → isBlank c = false) : Solid (text ++ rest) :=
  ⟨h.trimmed.append h.ne_nil hrest, List.append_ne_nil_of_left_ne_nil h.ne_nil _⟩

theorem solid_of_mem_items {selector item : String} (h : item ∈ items selector) :
    Solid item.toList :=
  ⟨trimmed_of_mem_items h, toList_ne_nil_of_mem_items h⟩

theorem solid_resolve {parent child : String} (hparent : Solid parent.toList)
    (hchild : Solid child.toList) : Solid (resolve parent child).toList := by
  obtain ⟨rest, heq, -, hlast⟩ := exists_toList_resolve parent hchild.ne_nil
  rw [heq]
  exact hparent.append fun c hc => hchild.trimmed.2 c (hlast c hc)

private theorem Solid.join {text rest : List Char} (h : Solid text) (hrest : Solid rest) :
    Solid (text ++ ',' :: ' ' :: rest) := by
  apply h.append
  intro c hc
  obtain ⟨d, others, rfl⟩ := List.exists_cons_of_ne_nil hrest.ne_nil
  rw [List.getLast?_cons_cons, List.getLast?_cons_cons] at hc
  exact hrest.trimmed.2 c hc

theorem trimmed_intercalate {selectors : List String}
    (h : ∀ selector ∈ selectors, Solid selector.toList) :
    Trimmed (", ".intercalate selectors).toList := by
  cases selectors with
  | nil => exact (by decide : Trimmed [])
  | cons selector selectors =>
      rw [toList_intercalate_cons]
      exact (forall_intercalate (P := Solid) .join (by simpa using h)).trimmed

/-! ## Proper texts -/

/-- A text as items and their expansions are: it has something to show at both
ends and does not begin with a comma. -/
structure Proper (text : List Char) : Prop extends Solid text where
  head : text.head? ≠ some ','

theorem Whole.proper {text : List Char} (h : Whole text) : Proper text :=
  ⟨⟨h.trimmed, h.ne_nil⟩, head?_ne_comma_of_uncut h.uncut⟩

theorem proper_of_mem_items {selector item : String} (h : item ∈ items selector) :
    Proper item.toList :=
  ⟨solid_of_mem_items h, head?_ne_comma_of_uncut (uncut_of_mem_items h)⟩

private theorem proper_resolve {parent child : String} (hparent : Proper parent.toList)
    (hchild : Proper child.toList) : Proper (resolve parent child).toList := by
  refine ⟨solid_resolve hparent.toSolid hchild.toSolid, ?_⟩
  obtain ⟨rest, heq, -⟩ := exists_toList_resolve parent hchild.ne_nil
  rw [heq, List.head?_append_of_ne_nil _ hparent.ne_nil]
  exact hparent.head

theorem proper_of_mem_expand {selectors : List String} {item : String}
    (h : item ∈ expand selectors) : Proper item.toList :=
  forall_mem_expand (P := fun item => Proper item.toList) proper_resolve
    (fun _ _ _ hitem => proper_of_mem_items hitem) item h

/-! ## The first item of a text -/

def itemTexts (text : List Char) : List (List Char) :=
  ((segments text).map trim).filter (· ≠ [])

theorem items_eq (selector : String) :
    items selector = (itemTexts selector.toList).map String.ofList :=
  rfl

theorem head?_itemTexts {text : List Char} (h : trim (cut {} text).1 ≠ []) :
    (itemTexts text).head? = some (trim (cut {} text).1) := by
  rw [itemTexts, segments, List.map_cons, List.filter_cons_of_pos (by simpa using h)]
  rfl

/-- What stands behind a text that is cut does not reach its first segment. -/
theorem cut_fst_append_of_cut {scan : Scan} {text : List Char} (h : (cut scan text).2 ≠ [])
    (rest : List Char) : (cut scan (text ++ rest)).1 = (cut scan text).1 := by
  obtain huncut | ⟨first, others, rfl, huncut, hclosed, heq⟩ := cut_cases scan text
  · exact absurd huncut h
  · rw [heq, List.append_assoc, List.cons_append, cut_append huncut, hclosed]
    exact List.append_nil first

theorem length_cut_fst_lt {scan : Scan} {text : List Char} (h : (cut scan text).2 ≠ []) :
    (cut scan text).1.length < text.length := by
  obtain huncut | ⟨first, others, rfl, -, -, heq⟩ := cut_cases scan text
  · exact absurd huncut h
  · simp [heq]

namespace Proper

variable {text : List Char} (h : Proper text)
include h

theorem whole (huncut : (cut {} text).2 = []) (hclosed : isClosed text = true) : Whole text :=
  ⟨hclosed, huncut, h.trimmed, h.ne_nil⟩

/-- A text that is cut begins an item that is shorter. -/
theorem head?_itemTexts_of_cut (hcut : (cut {} text).2 ≠ []) (rest : List Char) :
    (itemTexts (text ++ rest)).head? ≠ some text := by
  have hsegment := cut_fst_append_of_cut hcut rest
  have hne : trim (cut {} text).1 ≠ [] := by
    obtain ⟨c, others, rfl⟩ := List.exists_cons_of_ne_nil h.ne_nil
    have hcomma : ({} : Scan).separates c = false := by
      have hhead := h.head
      rw [List.head?_cons, ne_eq, Option.some.injEq] at hhead
      simp [Scan.separates, hhead]
    refine trim_ne_nil_of_mem (h.trimmed.1 c rfl) ?_
    simp [cut, hcomma]
  rw [head?_itemTexts (hsegment ▸ hne), hsegment, ne_eq, Option.some.injEq]
  intro heq
  have hlength := length_trim_le (cut {} text).1
  rw [heq] at hlength
  exact Nat.not_lt.mpr hlength (length_cut_fst_lt hcut)

omit h in
/-- A text that is not closed begins an item that has the comma behind it. -/
theorem head?_itemTexts_of_not_closed (huncut : (cut {} text).2 = [])
    (hopen : isClosed text = false) (rest : List Char) :
    (itemTexts (text ++ ',' :: rest)).head? ≠ some text := by
  have hcomma : (({} : Scan).after text).separates ',' = false := by
    rw [Bool.eq_false_iff]
    intro hseparates
    rw [isClosed, (Scan.eq_of_separates hseparates).2] at hopen
    cases hopen
  obtain ⟨others, hsegment⟩ :
      ∃ others, (cut {} (text ++ ',' :: rest)).1 = text ++ ',' :: others := by
    rw [cut_append huncut, cut]
    simp [hcomma]
  have hne : trim (text ++ ',' :: others) ≠ [] :=
    trim_ne_nil_of_mem (c := ',') rfl (by simp)
  rw [head?_itemTexts (hsegment ▸ hne), hsegment, ne_eq, Option.some.injEq]
  intro heq
  have hcount := count_trim (c := ',') rfl (text ++ ',' :: others)
  rw [heq, List.count_append, List.count_cons_self] at hcount
  omega

theorem itemTexts_eq_singleton_iff : itemTexts text = [text] ↔ (cut {} text).2 = [] := by
  constructor
  · intro heq
    by_contra hcut
    apply h.head?_itemTexts_of_cut hcut []
    rw [List.append_nil, heq]
    rfl
  · intro huncut
    simp [itemTexts, segments, huncut, cut_fst_of_uncut huncut, h.trimmed.trim_eq, h.ne_nil]

private theorem itemTexts_join_iff {rest : List Char} {texts : List (List Char)} :
    itemTexts (text ++ ',' :: ' ' :: rest) = text :: texts ↔
      (cut {} text).2 = [] ∧ isClosed text = true ∧ itemTexts rest = texts := by
  by_cases huncut : (cut {} text).2 = []
  · cases hclosed : isClosed text with
    | true =>
        have hwhole := h.whole huncut hclosed
        rw [itemTexts, hwhole.segments_append, List.map_cons, trim_segments_cons_blank rfl,
          h.trimmed.trim_eq, List.filter_cons_of_pos (by simpa using h.ne_nil)]
        simp [huncut, itemTexts]
    | false =>
        have hhead := head?_itemTexts_of_not_closed huncut hclosed (' ' :: rest)
        refine iff_of_false (fun heq => hhead ?_) (by simp)
        rw [heq]
        rfl
  · have hhead := h.head?_itemTexts_of_cut huncut (',' :: ' ' :: rest)
    refine iff_of_false (fun heq => hhead ?_) (by simp [huncut])
    rw [heq]
    rfl

end Proper

/-! ## Items of joined texts -/

theorem itemTexts_intercalate_iff {text : List Char} {texts : List (List Char)}
    (h : ∀ other ∈ text :: texts, Proper other) :
    itemTexts ([',', ' '].intercalate (text :: texts)) = text :: texts ↔
      (∀ other ∈ text :: texts, (cut {} other).2 = []) ∧
        ∀ other ∈ (text :: texts).dropLast, isClosed other = true := by
  induction texts generalizing text with
  | nil =>
      rw [List.intercalate_singleton, (h text List.mem_cons_self).itemTexts_eq_singleton_iff]
      simp
  | cons next texts ih =>
      obtain ⟨htext, hothers⟩ := List.forall_mem_cons.mp h
      have hjoined : [',', ' '].intercalate (text :: next :: texts) =
          text ++ ',' :: ' ' :: [',', ' '].intercalate (next :: texts) := by
        simp [List.intercalate_cons_cons]
      rw [hjoined, htext.itemTexts_join_iff, ih hothers, List.dropLast_cons_cons,
        List.forall_mem_cons (l := next :: texts), List.forall_mem_cons (a := text)]
      simp only [and_assoc, and_left_comm]

theorem items_eq_iff {selector : String} {selectors : List String} :
    items selector = selectors ↔ itemTexts selector.toList = selectors.map String.toList := by
  rw [items_eq]
  constructor
  · rintro rfl
    simp [Function.comp_def]
  · intro heq
    simp [heq, Function.comp_def]

theorem items_intercalate_iff {selectors : List String}
    (h : ∀ selector ∈ selectors, Proper selector.toList) :
    items (", ".intercalate selectors) = selectors ↔
      (∀ selector ∈ selectors, items selector = [selector]) ∧
        ∀ selector ∈ selectors.dropLast, isClosed selector.toList = true := by
  have hsingle : (∀ selector ∈ selectors, items selector = [selector]) ↔
      ∀ selector ∈ selectors, (cut {} selector.toList).2 = [] := by
    refine forall₂_congr fun selector hselector => ?_
    rw [items_eq_iff, List.map_singleton, (h selector hselector).itemTexts_eq_singleton_iff]
  rw [hsingle, items_eq_iff]
  cases selectors with
  | nil => simp [itemTexts, segments, cut]
  | cons selector selectors =>
      have hproper : ∀ text ∈ selector.toList :: selectors.map String.toList, Proper text := by
        simpa using h
      have hjoined := itemTexts_intercalate_iff hproper
      rw [← List.map_cons (f := String.toList), ← List.map_dropLast, List.forall_mem_map,
        List.forall_mem_map] at hjoined
      rw [toList_intercalate_cons]
      exact hjoined

theorem items_intercalate {selectors : List String}
    (h : ∀ selector ∈ selectors, Whole selector.toList) :
    items (", ".intercalate selectors) = selectors := by
  have hproper (selector) (hselector : selector ∈ selectors) : Proper selector.toList :=
    (h selector hselector).proper
  refine (items_intercalate_iff hproper).mpr ⟨fun selector hselector => ?_, ?_⟩
  · rw [items_eq_iff]
    exact (hproper selector hselector).itemTexts_eq_singleton_iff.mpr (h selector hselector).uncut
  · exact fun selector hselector => (h selector (List.dropLast_subset _ hselector)).closed

end Unnest.Selector
