import Unnest.Proofs.Selector.Joined
import Unnest.Proofs.Source.Stored

/-!
# Selectors that can be read again

A `Legible` selector runs as a head of its own, and neither begins like an
at-rule nor ends like the opening of a comment. Such selectors stay legible when
they are resolved and joined, since no comment opens where they meet.

The scan of a selector list and that of a head go through the same states, so
that the items of a rule that is read back run, and are legible if they are
closed and have the right characters at their ends.
-/

namespace Unnest.Selector

open Source Text

/-! ## Two scans -/

/-- The state of a head's scan at the same place. -/
def Scan.state (scan : Scan) : Head.State where
  mode :=
    match scan.quote, scan.escaped with
    | none, false => .plain
    | none, true => .escaped
    | some quote, false => .string quote
    | some quote, true => .stringEscaped quote
  depth := scan.depth

theorem Scan.state_step (scan : Scan) (c : Char) : (scan.step c).state = scan.state.step c := by
  obtain ⟨escaped, quote, depth⟩ := scan
  cases escaped with
  | true => cases quote <;> simp [step, state, Head.State.step, Head.Mode.next]
  | false =>
      by_cases hescape : c = '\\'
      · subst hescape
        have hdepth : depthAfter depth '\\' = depth := rfl
        cases quote <;> simp [step, state, Head.State.step, Head.Mode.next, isQuote, hdepth]
      · cases quote with
        | some quote =>
            by_cases hclose : c = quote
            · subst hclose
              simp [step, state, Head.State.step, Head.Mode.next, hescape]
            · simp [step, state, Head.State.step, Head.Mode.next, hescape, hclose]
        | none =>
            by_cases hquote : isQuote c = true
            · simp [step, state, Head.State.step, Head.Mode.next, hescape, hquote,
                depthAfter_of_isQuote]
            · simp [step, state, Head.State.step, Head.Mode.next, hescape, hquote]

private theorem Scan.state_after {scan : Scan} {text : List Char} {state : Head.State}
    (h : scan.state.run? text = some state) : (scan.after text).state = state := by
  induction text generalizing scan with
  | nil => exact Option.some.inj h
  | cons c rest ih =>
      rw [Head.State.run?] at h
      split at h
      · rw [← state_step] at h
        exact ih h
      · cases h

/-- The head's scan is back at its start where the scan of the list is. -/
theorem eq_start_of_run? {text : List Char} {state : Head.State}
    (h : ({} : Head.State).run? text = some state) (hafter : ({} : Scan).after text = {}) :
    state = {} := by
  have hstart : ({} : Scan).state.run? text = some state := h
  rw [← Scan.state_after hstart, hafter]
  rfl

/-! ## Items -/

/-- Each segment of a text that runs does so by itself. -/
theorem run?_of_mem_segments {text segment : List Char} {state : Head.State}
    (h : ({} : Head.State).run? text = some state) (hsegment : segment ∈ segments text) :
    ∃ mid, ({} : Head.State).run? segment = some mid := by
  obtain ⟨before, behind, rfl, hbefore, -⟩ := exists_of_mem_segments hsegment
  obtain ⟨_, hrun, h⟩ := Head.State.exists_run?_of_append h
  rw [eq_start_of_run? hrun hbefore] at h
  obtain ⟨mid, hmid, -⟩ := Head.State.exists_run?_of_append h
  exact ⟨mid, hmid⟩

/-- A closed item of a rule that is read back runs back to the start. -/
theorem run?_of_mem_items {selector item : String} (h : (Content.rule selector).ReadsBack)
    (hitem : item ∈ items selector) (hclosed : isClosed item.toList = true) :
    ({} : Head.State).run? item.toList = some {} := by
  obtain ⟨segment, hsegment, -, rfl⟩ := mem_items.mp hitem
  obtain ⟨_, hselector, -⟩ := Head.State.exists_run?_of_append (Content.readsBack_iff.mp h)
  obtain ⟨_, hrun⟩ := run?_of_mem_segments hselector hsegment
  -- The blanks around the item lead from the start to the start.
  obtain ⟨before, after, hsplit, hbefore, -⟩ := exists_blanks_trim segment
  rw [hsplit] at hrun
  obtain ⟨_, hblanks, hrun⟩ := Head.State.exists_run?_of_append hrun
  rw [eq_start_of_run? hblanks (Scan.after_blanks hbefore)] at hrun
  obtain ⟨state, hrun, -⟩ := Head.State.exists_run?_of_append hrun
  rw [String.toList_ofList] at hclosed ⊢
  rw [hrun, eq_start_of_run? hrun (eq_of_beq hclosed)]

/-! ## Legible texts -/

/-- A text that is read as it stands, and after which this goes on with what is
put behind it. It is not taken for an at-rule. -/
structure Legible (text : List Char) : Prop where
  run : ({} : Head.State).run? text = some {}
  ne_nil : text ≠ []
  head : text.head? ≠ some '@'
  last : text.getLast? ≠ some '/'

namespace Legible

variable {text rest : List Char}

theorem run_append (h : Legible text) (rest : List Char) :
    ({} : Head.State).run? (text ++ rest) = ({} : Head.State).run? rest := by
  rw [Head.State.run?_append_of_apart fun _ => h.last, h.run]
  rfl

theorem append (h : Legible text) (hrun : ({} : Head.State).run? rest = some {})
    (hlast : rest.getLast? ≠ some '/') : Legible (text ++ rest) where
  run := by rw [h.run_append, hrun]
  ne_nil := List.append_ne_nil_of_left_ne_nil h.ne_nil _
  head := by
    rw [List.head?_append_of_ne_nil _ h.ne_nil]
    exact h.head
  last := by
    rw [List.getLast?_append]
    cases hrest : rest.getLast? with
    | none => exact h.last
    | some c =>
        rw [hrest] at hlast
        exact hlast

theorem join (h : Legible text) (hrest : Legible rest) : Legible (text ++ ',' :: ' ' :: rest) := by
  apply h.append
  · exact hrest.run
  · obtain ⟨c, others, rfl⟩ := List.exists_cons_of_ne_nil hrest.ne_nil
    rw [List.getLast?_cons_cons, List.getLast?_cons_cons]
    exact hrest.last

end Legible

theorem legible_resolve {parent child : String} (hparent : Legible parent.toList)
    (hchild : Legible child.toList) : Legible (resolve parent child).toList := by
  obtain ⟨rest, heq, htail, hlast⟩ := exists_toList_resolve parent hchild.ne_nil
  rw [heq]
  refine hparent.append ?_ fun hslash => hchild.last (hlast _ hslash)
  rcases htail with htail | rfl
  · have hrun := hchild.run
    rw [htail] at hrun
    exact hrun
  · exact hchild.run

/-! ## Texts of rules -/

def ReadAsRule (selector : String) : Prop :=
  (Content.rule selector).ReadsBack ∧ selector.toList.head? ≠ some '@'

instance : DecidablePred ReadAsRule :=
  fun _ => inferInstanceAs (Decidable (_ ∧ _))

/-- Of a trimmed text this is all that the reader asks for. -/
theorem readAsRule_iff {selector : String} (h : Trimmed selector.toList) :
    ReadAsRule selector ↔
      (Content.rule selector).Stored ∧ (Content.rule selector).ReadsBack := by
  constructor
  · rintro ⟨hread, hat⟩
    refine ⟨⟨h, fun c hc => ⟨?_, ?_⟩⟩, hread⟩
    · rintro rfl
      exact hat hc
    · rintro rfl
      obtain ⟨rest, hselector⟩ := List.head?_eq_some_iff.mp hc
      have hrun := Content.readsBack_iff.mp hread
      rw [Content.head, hselector, List.cons_append, Head.State.run?,
        if_neg (by simp [Head.State.takes, Head.isTerminator])] at hrun
      cases hrun
  · rintro ⟨⟨-, hfirst⟩, hread⟩
    exact ⟨hread, fun hat => (hfirst _ hat).1 rfl⟩

theorem readAsRule_intercalate {selectors : List String}
    (h : ∀ selector ∈ selectors, Legible selector.toList) :
    ReadAsRule (", ".intercalate selectors) := by
  rw [ReadAsRule, Content.readsBack_iff, Content.head]
  cases selectors with
  | nil => decide
  | cons selector selectors =>
      have hlegible : ∀ text ∈ selector.toList :: selectors.map String.toList, Legible text := by
        simpa using h
      have hjoined := forall_intercalate (P := Legible) .join hlegible
      rw [toList_intercalate_cons]
      refine ⟨?_, hjoined.head⟩
      rw [hjoined.run_append]
      rfl

end Unnest.Selector
