import Unnest.Proofs.Text.Trim
import Unnest.Selector.Expand

/-!
# Selectors that stand for themselves

A `Whole` text is a single item of a selector list, and ends in the state in
which its scan begins, so that a comma behind it separates. Resolving a whole
text inside another gives a whole text. The items of any selector are whole as
soon as they are closed.
-/

namespace Unnest.Selector

open Text

structure Whole (text : List Char) : Prop where
  closed : isClosed text = true
  uncut : (cut {} text).2 = []
  trimmed : Trimmed text
  ne_nil : text ≠ []

/-! ## Cutting -/

theorem Scan.eq_of_separates {scan : Scan} {c : Char} (h : scan.separates c = true) :
    c = ',' ∧ scan = {} := by
  obtain ⟨escaped, quote, depth⟩ := scan
  simp only [separates, Bool.and_eq_true, beq_iff_eq, Bool.not_eq_true'] at h
  obtain ⟨⟨⟨rfl, rfl⟩, rfl⟩, rfl⟩ := h
  exact ⟨rfl, rfl⟩

theorem cut_cons_of_separates {scan : Scan} {c : Char} (h : scan.separates c = true)
    (rest : List Char) : cut scan (c :: rest) = ([], segments rest) := by
  obtain ⟨rfl, rfl⟩ := Scan.eq_of_separates h
  rfl

theorem cut_cons_of_not_separates {scan : Scan} {c : Char} (h : scan.separates c = false)
    (rest : List Char) :
    cut scan (c :: rest) = (c :: (cut (scan.step c) rest).1, (cut (scan.step c) rest).2) := by
  rw [cut, h]
  rfl

theorem head?_ne_comma_of_uncut {text : List Char} (h : (cut {} text).2 = []) :
    text.head? ≠ some ',' := by
  intro hcomma
  obtain ⟨rest, rfl⟩ := List.head?_eq_some_iff.mp hcomma
  rw [cut] at h
  cases h

theorem cut_append_uncut_iff {scan : Scan} {text rest : List Char} :
    (cut scan (text ++ rest)).2 = [] ↔
      (cut scan text).2 = [] ∧ (cut (scan.after text) rest).2 = [] := by
  induction text generalizing scan with
  | nil => simp [cut]
  | cons c text ih =>
      rw [List.cons_append]
      cases hseparates : scan.separates c with
      | true => simp [cut_cons_of_separates hseparates, segments]
      | false => simpa [cut_cons_of_not_separates hseparates] using ih

theorem cut_append {scan : Scan} {text : List Char} (h : (cut scan text).2 = [])
    (rest : List Char) :
    cut scan (text ++ rest) =
      (text ++ (cut (scan.after text) rest).1, (cut (scan.after text) rest).2) := by
  induction text generalizing scan with
  | nil => rfl
  | cons c text ih =>
      cases hseparates : scan.separates c with
      | true =>
          rw [cut_cons_of_separates hseparates] at h
          cases h
      | false =>
          rw [cut_cons_of_not_separates hseparates] at h
          rw [List.cons_append, cut_cons_of_not_separates hseparates, ih h]
          rfl

theorem cut_fst_of_uncut {scan : Scan} {text : List Char} (h : (cut scan text).2 = []) :
    (cut scan text).1 = text := by
  simpa [cut] using congrArg Prod.fst (cut_append h [])

/-- A text is uncut, or its first segment is closed and ends at a comma, and what
stands behind this comma is scanned from the start. -/
theorem cut_cases (scan : Scan) (text : List Char) :
    (cut scan text).2 = [] ∨
      ∃ first rest, text = first ++ ',' :: rest ∧ (cut scan first).2 = [] ∧
        scan.after first = {} ∧ cut scan text = (first, segments rest) := by
  induction text generalizing scan with
  | nil => exact .inl rfl
  | cons c text ih =>
      cases hseparates : scan.separates c with
      | true =>
          obtain ⟨rfl, hstart⟩ := Scan.eq_of_separates hseparates
          exact .inr ⟨[], text, rfl, rfl, hstart, cut_cons_of_separates hseparates text⟩
      | false =>
          rw [cut_cons_of_not_separates hseparates]
          rcases ih (scan.step c) with huncut | ⟨first, rest, rfl, huncut, hclosed, heq⟩
          · exact .inl huncut
          · refine .inr ⟨c :: first, rest, rfl, ?_, hclosed, by rw [heq]⟩
            rwa [cut_cons_of_not_separates hseparates]

theorem cut_append_comma {scan : Scan} {text : List Char} (h : scan.after text = {})
    (rest : List Char) :
    cut scan (text ++ ',' :: rest) = ((cut scan text).1, (cut scan text).2 ++ segments rest) := by
  induction text generalizing scan with
  | nil =>
      rw [Scan.after_nil] at h
      subst h
      rfl
  | cons c text ih =>
      rw [Scan.after_cons] at h
      rw [List.cons_append]
      cases hseparates : scan.separates c with
      | true =>
          obtain ⟨rfl, rfl⟩ := Scan.eq_of_separates hseparates
          have ih : cut {} (text ++ ',' :: rest) = _ := ih h
          rw [cut_cons_of_separates hseparates, cut_cons_of_separates hseparates, segments, ih]
          rfl
      | false =>
          rw [cut_cons_of_not_separates hseparates, cut_cons_of_not_separates hseparates, ih h]

theorem segments_append_comma {text : List Char} (h : ({} : Scan).after text = {})
    (rest : List Char) : segments (text ++ ',' :: rest) = segments text ++ segments rest := by
  rw [segments, cut_append_comma h]
  rfl

/-- Where a segment stands: behind a closed text, uncut, and closed by itself
unless it is the last. -/
theorem exists_of_mem_segments {text segment : List Char} (h : segment ∈ segments text) :
    ∃ before behind, text = before ++ (segment ++ behind) ∧ ({} : Scan).after before = {} ∧
      (cut {} segment).2 = [] ∧ (behind = [] ∨ ({} : Scan).after segment = {}) := by
  rcases cut_cases {} text with huncut | ⟨first, rest, heq, huncut, hclosed, hcut⟩
  · rw [segments, cut_fst_of_uncut huncut, huncut, List.mem_singleton] at h
    subst h
    exact ⟨[], [], by simp, rfl, huncut, .inl rfl⟩
  · rw [segments, hcut] at h
    rcases List.mem_cons.mp h with rfl | h
    · exact ⟨[], _, heq, rfl, huncut, .inr hclosed⟩
    · have hshorter : rest.length < text.length := by
        rw [heq, List.length_append, List.length_cons]
        omega
      obtain ⟨before, behind, rfl, hbefore, hsegment⟩ := exists_of_mem_segments h
      refine ⟨first ++ ',' :: before, behind, by simp [heq], ?_, hsegment⟩
      rw [Scan.after_append, hclosed, ← List.singleton_append, Scan.after_append]
      exact hbefore
termination_by text.length

/-! ## Blanks -/

theorem Scan.step_blank {c : Char} (h : isBlank c = true) : ({} : Scan).step c = {} := by
  have hquote : isQuote c = false := by
    simp [isQuote, ne_of_isBlank h (d := '"') rfl, ne_of_isBlank h (d := '\'') rfl]
  have hdepth : depthAfter 0 c = 0 := by
    simp [depthAfter, ne_of_isBlank h (d := '(') rfl, ne_of_isBlank h (d := '[') rfl]
  simp [step, ne_of_isBlank h (d := '\\') rfl, hquote, hdepth]

theorem Scan.after_blanks {blanks : List Char} (h : ∀ c ∈ blanks, isBlank c = true) :
    ({} : Scan).after blanks = {} := by
  induction blanks with
  | nil => rfl
  | cons c rest ih =>
      rw [after_cons, step_blank (h c (by simp)), ih fun d hd => h d (by simp [hd])]

theorem uncut_trim {text : List Char} (h : (cut {} text).2 = []) :
    (cut {} (trim text)).2 = [] := by
  obtain ⟨before, after, hsplit, hbefore, -⟩ := exists_blanks_trim text
  rw [hsplit, cut_append_uncut_iff, Scan.after_blanks hbefore, cut_append_uncut_iff] at h
  exact h.2.1

theorem toList_ne_nil_of_mem_items {selector item : String} (h : item ∈ items selector) :
    item.toList ≠ [] :=
  fun hnil => ne_empty_of_mem_items h (String.toList_eq_nil_iff.mp hnil)

theorem uncut_of_mem_items {selector item : String} (h : item ∈ items selector) :
    (cut {} item.toList).2 = [] := by
  obtain ⟨segment, hmem, -, rfl⟩ := mem_items.mp h
  obtain ⟨-, -, -, -, huncut, -⟩ := exists_of_mem_segments hmem
  rw [String.toList_ofList]
  exact uncut_trim huncut

theorem whole_of_mem_items {selector item : String} (h : item ∈ items selector)
    (hclosed : isClosed item.toList = true) : Whole item.toList :=
  ⟨hclosed, uncut_of_mem_items h, trimmed_of_mem_items h, toList_ne_nil_of_mem_items h⟩

/-! ## Whole texts in front of others -/

namespace Whole

variable {text text' : List Char}

theorem after_eq (h : Whole text) : ({} : Scan).after text = {} :=
  eq_of_beq h.closed

theorem append (h : Whole text) (hclosed : ({} : Scan).after text' = {})
    (huncut : (cut {} text').2 = [])
    (htrimmed : ∀ c, text'.getLast? = some c → isBlank c = false) : Whole (text ++ text') where
  closed := by
    rw [isClosed, Scan.after_append, h.after_eq, hclosed]
    rfl
  uncut := by
    rw [cut_append_uncut_iff, h.after_eq]
    exact ⟨h.uncut, huncut⟩
  trimmed := h.trimmed.append h.ne_nil htrimmed
  ne_nil := List.append_ne_nil_of_left_ne_nil h.ne_nil _

theorem segments_append (h : Whole text) (rest : List Char) :
    segments (text ++ ',' :: rest) = text :: segments rest := by
  rw [segments_append_comma h.after_eq, segments, h.uncut, cut_fst_of_uncut h.uncut]
  rfl

end Whole

theorem trim_segments_cons_blank {c : Char} (h : isBlank c = true) (text : List Char) :
    (segments (c :: text)).map trim = (segments text).map trim := by
  have hcut : cut {} (c :: text) = (c :: (cut {} text).1, (cut {} text).2) := by
    have hcomma : ({} : Scan).separates c = false := by
      simp [Scan.separates, ne_of_isBlank h (d := ',') rfl]
    rw [cut, Scan.step_blank h]
    simp [hcomma]
  rw [segments, hcut, segments, List.map_cons, List.map_cons, trim, trimStart,
    List.dropWhile_cons_of_pos h, trim, trimStart]

/-! ## Expansion -/

/-- What items have and resolving keeps, all selectors have. -/
theorem forall_mem_within {P : String → Prop}
    (hresolve : ∀ {parent child}, P parent → P child → P (resolve parent child))
    {outer : List String} {selector : String} (houter : ∀ other ∈ outer, P other)
    (hitems : ∀ item ∈ items selector, P item) : ∀ item ∈ within outer selector, P item := by
  intro item hitem
  unfold within at hitem
  split at hitem
  · exact hitems item hitem
  · obtain ⟨parent, hparent, child, hchild, rfl⟩ := mem_cross.mp hitem
    exact hresolve (houter parent hparent) (hitems child hchild)

theorem forall_mem_expand {P : String → Prop}
    (hresolve : ∀ {parent child}, P parent → P child → P (resolve parent child))
    {selectors : List String} (hitems : ∀ selector ∈ selectors, ∀ item ∈ items selector, P item) :
    ∀ item ∈ expand selectors, P item := by
  induction selectors with
  | nil => simp [expand]
  | cons selector outer ih =>
      obtain ⟨hselector, houter⟩ := List.forall_mem_cons.mp hitems
      exact forall_mem_within hresolve (ih houter) hselector

/-- What resolving puts behind the parent is the child, after a blank or without
its first character. -/
theorem exists_toList_resolve (parent : String) {child : String} (h : child.toList ≠ []) :
    ∃ rest, (resolve parent child).toList = parent.toList ++ rest ∧
      (child.toList = parentReference :: rest ∨ rest = ' ' :: child.toList) ∧
      ∀ c, rest.getLast? = some c → child.toList.getLast? = some c := by
  have hdescendant : (parent ++ " " ++ child).toList = parent.toList ++ ' ' :: child.toList := by
    simp
  have hlast (c : Char) : (' ' :: child.toList).getLast? = some c →
      child.toList.getLast? = some c := by
    obtain ⟨d, rest, hchild⟩ := List.exists_cons_of_ne_nil h
    rw [hchild, List.getLast?_cons_cons]
    exact id
  unfold resolve
  split
  · next hnil => exact absurd hnil h
  · next c rest hchild =>
      split
      · next hreference =>
          refine ⟨rest, by simp, .inl (by rw [hchild, hreference]), ?_⟩
          intro d hd
          rw [hchild, List.getLast?_cons, hd]
          rfl
      · exact ⟨_, hdescendant, .inr rfl, hlast⟩

private theorem whole_resolve {parent child : String} (hparent : Whole parent.toList)
    (hchild : Whole child.toList) : Whole (resolve parent child).toList := by
  obtain ⟨rest, heq, htail, hlast⟩ := exists_toList_resolve parent hchild.ne_nil
  have hclosed := hchild.after_eq
  have huncut := hchild.uncut
  have hrest : ({} : Scan).after rest = {} ∧ (cut {} rest).2 = [] := by
    rcases htail with htail | rfl
    · -- Behind the reference the scan is still at its start.
      have hreference : ({} : Scan).after [parentReference] = {} := rfl
      rw [htail, ← List.singleton_append] at hclosed huncut
      rw [Scan.after_append, hreference] at hclosed
      rw [cut_append_uncut_iff, hreference] at huncut
      exact ⟨hclosed, huncut.2⟩
    · have hblank : ({} : Scan).after [' '] = {} := rfl
      rw [← List.singleton_append, Scan.after_append, cut_append_uncut_iff, hblank]
      exact ⟨hclosed, rfl, huncut⟩
  rw [heq]
  exact hparent.append hrest.1 hrest.2 fun c hc => hchild.trimmed.2 c (hlast c hc)

theorem whole_of_mem_expand {selectors : List String} {item : String}
    (hitems : ∀ selector ∈ selectors, ∀ other ∈ items selector, isClosed other.toList = true)
    (h : item ∈ expand selectors) : Whole item.toList :=
  forall_mem_expand (P := fun item => Whole item.toList) whole_resolve
    (fun selector hselector item hitem =>
      whole_of_mem_items hitem (hitems selector hselector item hitem)) item h

end Unnest.Selector
