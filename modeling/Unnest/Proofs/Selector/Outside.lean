import Unnest.Proofs.Selector.Legible

/-!
# Items of a rule's head

The head of a rule ends at a brace outside of brackets, strings and escapes, so
a scan of its text ends outside too. Trimming takes nothing away from that but
an escape: the blank behind a backslash. An item of a rule that was read is
therefore closed unless it is torn, that is, unless it ends in a backslash with
nothing behind it.
-/

namespace Unnest.Selector

open Source Text

/-- Outside of brackets and strings, maybe behind a backslash. -/
def Scan.Outside (scan : Scan) : Prop :=
  scan.quote = none ∧ scan.depth = 0

/-- The text ends in a backslash that has lost what it escapes. -/
def Torn (text : List Char) : Prop :=
  (({} : Scan).after text).escaped = true

instance : DecidablePred Torn :=
  fun _ => inferInstanceAs (Decidable (_ = true))

theorem isClosed_iff {text : List Char} :
    isClosed text = true ↔ (({} : Scan).after text).Outside ∧ ¬ Torn text := by
  rw [isClosed, beq_iff_eq, Scan.Outside, Torn]
  obtain ⟨escaped, quote, depth⟩ := ({} : Scan).after text
  simp [and_comm]

/-! ## Heads -/

private theorem Scan.eq_of_state {scan : Scan} (h : scan.state = {}) : scan = {} := by
  obtain ⟨escaped, quote, depth⟩ := scan
  cases escaped <;> cases quote <;> simp_all [state]

/-- In front of what ends a head, the text of the head is scanned back to the
start: comments, which are left out of it, move neither scan. -/
theorem Scan.after_of_readFrom {scan : Scan} {reader : Head.Scan} {input text left : List Char}
    (hstate : reader.state = scan.state) (h : Head.readFrom reader input = .ok (text, left))
    (hleft : left ≠ []) : scan.after text = {} := by
  induction input generalizing scan reader text with
  | nil =>
      have hlength := Head.length_readFrom h
      have := List.length_pos_iff.mpr hleft
      simp only [List.length_nil] at hlength
      omega
  | cons c rest ih =>
      rcases Head.cases_of_readFrom_cons h with ⟨hstops, rfl, -⟩ | ⟨-, -, text', hread, rfl⟩
      · apply Scan.eq_of_state
        simp only [Head.Scan.stops, Bool.and_eq_true, beq_iff_eq] at hstops
        rw [Scan.after_nil, ← hstate, Head.Scan.state, hstops.1.1, hstops.1.2]
        rfl
      · cases hkeeps : reader.place.keeps c rest with
        | false => exact ih ((Head.state_step_of_not_keeps hkeeps).trans hstate) hread
        | true =>
            rw [if_pos rfl, Scan.after_cons]
            refine ih ?_ hread
            rw [Head.state_step (Head.inComment_of_keeps hkeeps) hkeeps, hstate, Scan.state_step]

/-! ## Trimming -/

theorem Scan.quote_step {scan : Scan} {c q : Char} (h : (scan.step c).quote = some q) :
    scan.quote = some q ∨ isQuote q = true := by
  unfold step at h
  split at h
  · exact .inl h
  · split at h
    · exact .inl h
    · split at h
      · split at h
        · cases h
        · exact .inl h
      · split at h
        · next hquote =>
            cases h
            exact .inr hquote
        · exact .inl h

def Scan.Quoted (scan : Scan) : Prop :=
  ∀ q, scan.quote = some q → isQuote q = true

theorem Scan.Quoted.after {scan : Scan} (h : scan.Quoted) (text : List Char) :
    (scan.after text).Quoted := by
  induction text generalizing scan with
  | nil => exact h
  | cons c rest ih =>
      rw [Scan.after_cons]
      refine ih fun q hq => ?_
      rcases quote_step hq with hold | hquote
      · exact h q hold
      · exact hquote

theorem Scan.quoted_start : ({} : Scan).Quoted := by
  intro q hq
  cases hq

/-- A blank leads neither out of brackets nor out of a string. -/
theorem Scan.Quoted.outside_of_step {scan : Scan} (h : scan.Quoted) {c : Char}
    (hc : isBlank c = true) (houtside : (scan.step c).Outside) : scan.Outside := by
  have hdepth : depthAfter scan.depth c = scan.depth := by
    simp [depthAfter, ne_of_isBlank hc (d := '(') rfl, ne_of_isBlank hc (d := '[') rfl,
      ne_of_isBlank hc (d := ')') rfl, ne_of_isBlank hc (d := ']') rfl]
  have hquote : isQuote c = false := by
    simp [isQuote, ne_of_isBlank hc (d := '"') rfl, ne_of_isBlank hc (d := '\'') rfl]
  unfold step at houtside
  rw [if_neg (ne_of_isBlank hc (d := '\\') rfl)] at houtside
  split at houtside
  · exact houtside
  · split at houtside
    · next q hq =>
        split at houtside
        · next heq =>
            have := h q hq
            rw [← heq, hquote] at this
            cases this
        · exact houtside
    · rw [hquote, if_neg Bool.false_ne_true, hdepth] at houtside
      exact houtside

private theorem Scan.Quoted.outside_of_after {scan : Scan} (h : scan.Quoted) {blanks : List Char}
    (hblanks : ∀ c ∈ blanks, isBlank c = true) (houtside : (scan.after blanks).Outside) :
    scan.Outside := by
  induction blanks generalizing scan with
  | nil => exact houtside
  | cons c rest ih =>
      obtain ⟨hc, hrest⟩ := List.forall_mem_cons.mp hblanks
      rw [Scan.after_cons] at houtside
      exact h.outside_of_step hc (ih (h.after [c]) hrest houtside)

theorem outside_trim {text : List Char} (h : (({} : Scan).after text).Outside) :
    (({} : Scan).after (trim text)).Outside := by
  obtain ⟨before, after, hsplit, hbefore, hafter⟩ := exists_blanks_trim text
  rw [hsplit, Scan.after_append, Scan.after_blanks hbefore, Scan.after_append] at h
  exact (Scan.quoted_start.after (trim text)).outside_of_after hafter h

/-! ## Items -/

private theorem outside_of_mem_segments {text segment : List Char}
    (h : (({} : Scan).after text).Outside) (hsegment : segment ∈ segments text) :
    (({} : Scan).after segment).Outside := by
  obtain ⟨before, behind, rfl, hbefore, -, rfl | hclosed⟩ := exists_of_mem_segments hsegment
  · rwa [Scan.after_append, hbefore, List.append_nil] at h
  · rw [hclosed]
    exact ⟨rfl, rfl⟩

theorem outside_of_mem_items {selector item : String}
    (h : (({} : Scan).after selector.toList).Outside) (hitem : item ∈ items selector) :
    (({} : Scan).after item.toList).Outside := by
  obtain ⟨segment, hsegment, -, rfl⟩ := mem_items.mp hitem
  rw [String.toList_ofList]
  exact outside_trim (outside_of_mem_segments h hsegment)

theorem subset_of_mem_items {selector item : String} (h : item ∈ items selector) :
    item.toList ⊆ selector.toList := by
  obtain ⟨segment, hsegment, -, rfl⟩ := mem_items.mp h
  obtain ⟨before, behind, hselector, -⟩ := exists_of_mem_segments hsegment
  obtain ⟨front, rear, hsplit, -⟩ := exists_blanks_trim segment
  intro c hc
  rw [String.toList_ofList] at hc
  rw [hselector, hsplit]
  simp [hc]

private theorem Scan.escaped_step {scan : Scan} {c : Char} (h : (scan.step c).escaped = true) :
    c = '\\' := by
  unfold step at h
  split at h
  · cases h
  · next hplain =>
      split at h
      · next hescape => exact hescape
      · split at h
        · split at h <;> exact absurd h hplain
        · split at h <;> exact absurd h hplain

private theorem Scan.mem_of_escaped_after {scan : Scan} {text : List Char}
    (h : (scan.after text).escaped = true) : scan.escaped = true ∨ '\\' ∈ text := by
  induction text generalizing scan with
  | nil => exact .inl h
  | cons c rest ih =>
      rcases ih h with hstep | hmem
      · exact .inr (escaped_step hstep ▸ List.mem_cons_self)
      · exact .inr (List.mem_cons_of_mem c hmem)

theorem mem_of_torn {text : List Char} (h : Torn text) : '\\' ∈ text :=
  (Scan.mem_of_escaped_after h).resolve_left Bool.false_ne_true

/-- The selector of a rule that is read is scanned back to the outside. -/
theorem outside_of_read {input head left : List Char} (h : Head.read input = .ok (head, left))
    (hleft : left ≠ []) : (({} : Scan).after (trim head)).Outside := by
  apply outside_trim
  rw [Scan.after_of_readFrom rfl h hleft]
  exact ⟨rfl, rfl⟩

end Unnest.Selector
