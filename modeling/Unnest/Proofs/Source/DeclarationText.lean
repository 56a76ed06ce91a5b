import Unnest.Proofs.Text.Trim
import Unnest.Source.Declaration

/-!
# The text of a declaration

A property that is cut off at the colon behind it is cut off there whatever
follows, and can be trimmed before. So a declaration that is written with a
colon, a blank and maybe the mark of importance is read as what it was.
-/

namespace Unnest.Source.Declaration

open Text

/-! ## The cut -/

theorem cutAtColonFrom_of_colon {quote : Option Char} {depth : Nat} {before : List Char}
    (h : cutAtColonFrom quote depth (before ++ [':']) = some (before, [])) (after : List Char) :
    cutAtColonFrom quote depth (before ++ ':' :: after) = some (before, after) := by
  induction before generalizing quote depth with
  | nil =>
      rw [List.nil_append] at h ⊢
      cases quote with
      | some q => simp [cutAtColonFrom] at h
      | none =>
          rw [cutAtColonFrom] at h ⊢
          by_cases hdepth : depth = 0
          · simp [hdepth]
          · simp [hdepth, cutAtColonFrom] at h
  | cons c before ih =>
      rw [List.cons_append] at h ⊢
      cases quote with
      | some q =>
          rw [cutAtColonFrom] at h ⊢
          obtain ⟨⟨cutBefore, cutAfter⟩, hcut, heq⟩ := Option.map_eq_some_iff.mp h
          obtain ⟨hbefore, rfl⟩ := Prod.mk.inj heq
          obtain ⟨-, rfl⟩ := List.cons.inj hbefore
          simp only [ih hcut, Option.map_some]
      | none =>
          rw [cutAtColonFrom] at h ⊢
          split at h
          · cases h
          · next hcolon =>
              obtain ⟨⟨cutBefore, cutAfter⟩, hcut, heq⟩ := Option.map_eq_some_iff.mp h
              obtain ⟨hbefore, rfl⟩ := Prod.mk.inj heq
              obtain ⟨-, rfl⟩ := List.cons.inj hbefore
              simp only [if_neg hcolon, ih hcut, Option.map_some]

theorem colon_of_cutAtColonFrom {quote : Option Char} {depth : Nat}
    {text before after : List Char}
    (h : cutAtColonFrom quote depth text = some (before, after)) :
    cutAtColonFrom quote depth (before ++ [':']) = some (before, []) := by
  induction text generalizing quote depth before with
  | nil => simp [cutAtColonFrom] at h
  | cons c rest ih =>
      cases quote with
      | some q =>
          rw [cutAtColonFrom] at h
          obtain ⟨⟨before', after'⟩, hcut, heq⟩ := Option.map_eq_some_iff.mp h
          cases heq
          simp [cutAtColonFrom, ih hcut]
      | none =>
          rw [cutAtColonFrom] at h
          split at h
          · next hcolon =>
              cases h
              simp [cutAtColonFrom, hcolon.2]
          · next hcolon =>
              obtain ⟨⟨before', after'⟩, hcut, heq⟩ := Option.map_eq_some_iff.mp h
              cases heq
              simp [cutAtColonFrom, hcolon, ih hcut]

theorem cutAtColonFrom_cons_blank {quote : Option Char} {c : Char} (hc : isBlank c = true)
    (hquote : ∀ q ∈ quote, isQuote q = true) (depth : Nat) (text : List Char) :
    cutAtColonFrom quote depth (c :: text) =
      (cutAtColonFrom quote depth text).map fun (before, after) => (c :: before, after) := by
  cases quote with
  | some q =>
      have hne : c ≠ q := by
        rintro rfl
        have hq := hquote c rfl
        simp only [isQuote, Bool.or_eq_true, beq_iff_eq] at hq
        rcases hq with rfl | rfl <;> cases hc
      simp [cutAtColonFrom, hne]
  | none =>
      have hplain : isQuote c = false := by
        simp [isQuote, ne_of_isBlank hc (d := '"') rfl, ne_of_isBlank hc (d := '\'') rfl]
      have hdepth : depthAfter depth c = depth := by
        simp [depthAfter, ne_of_isBlank hc (d := '(') rfl, ne_of_isBlank hc (d := '[') rfl,
          ne_of_isBlank hc (d := ')') rfl, ne_of_isBlank hc (d := ']') rfl]
      simp [cutAtColonFrom, ne_of_isBlank hc (d := ':') rfl, hplain, hdepth]

theorem colon_of_blanks {quote : Option Char} {depth : Nat} {blanks : List Char}
    (hblanks : ∀ c ∈ blanks, isBlank c = true) (hquote : ∀ q ∈ quote, isQuote q = true)
    (text : List Char) :
    cutAtColonFrom quote depth (blanks ++ text) =
      (cutAtColonFrom quote depth text).map fun (before, after) => (blanks ++ before, after) := by
  induction blanks with
  | nil => simp
  | cons c blanks ih =>
      rw [List.cons_append, cutAtColonFrom_cons_blank (hblanks c (by simp)) hquote,
        ih fun d hd => hblanks d (by simp [hd]), Option.map_map]
      rfl

private theorem colon_of_append_blanks {quote : Option Char} {depth : Nat} {text blanks : List Char}
    (hblanks : ∀ c ∈ blanks, isBlank c = true) (hquote : ∀ q ∈ quote, isQuote q = true)
    (h : cutAtColonFrom quote depth (text ++ (blanks ++ [':'])) = some (text ++ blanks, [])) :
    cutAtColonFrom quote depth (text ++ [':']) = some (text, []) := by
  induction text generalizing quote depth with
  | nil =>
      rw [List.nil_append, colon_of_blanks hblanks hquote] at h
      obtain ⟨⟨before, after⟩, hcut, heq⟩ := Option.map_eq_some_iff.mp h
      obtain ⟨hbefore, rfl⟩ := Prod.mk.inj heq
      rw [List.nil_append, hcut, List.append_right_eq_self.mp hbefore]
  | cons c text ih =>
      rw [List.cons_append] at h ⊢
      cases quote with
      | some q =>
          rw [cutAtColonFrom] at h ⊢
          obtain ⟨⟨before, after⟩, hcut, heq⟩ := Option.map_eq_some_iff.mp h
          obtain ⟨hbefore, rfl⟩ := Prod.mk.inj heq
          obtain ⟨-, rfl⟩ := List.cons.inj hbefore
          have hquote' : ∀ r ∈ (if c = q then none else some q), isQuote r = true := by
            intro r hr
            split at hr
            · cases hr
            · exact hquote r hr
          simp [ih hquote' hcut]
      | none =>
          rw [cutAtColonFrom] at h ⊢
          split at h
          · cases h
          · next hcolon =>
              obtain ⟨⟨before, after⟩, hcut, heq⟩ := Option.map_eq_some_iff.mp h
              obtain ⟨hbefore, rfl⟩ := Prod.mk.inj heq
              obtain ⟨-, rfl⟩ := List.cons.inj hbefore
              have hquote' : ∀ r ∈ (if isQuote c = true then some c else none),
                  isQuote r = true := by
                intro r hr
                split at hr
                · next hc =>
                    cases hr
                    exact hc
                · cases hr
              simp [hcolon, ih hquote' hcut]

/-- The colon behind a property still cuts it off when the property is trimmed. -/
theorem cutAtColon_trim {text before after : List Char}
    (h : cutAtColon text = some (before, after)) :
    cutAtColon (trim before ++ [':']) = some (trim before, []) := by
  have hcolon := colon_of_cutAtColonFrom h
  obtain ⟨start, stop, hsplit, hstart, hstop⟩ := exists_blanks_trim before
  have hnone : ∀ q ∈ (none : Option Char), isQuote q = true := by simp
  rw [hsplit, List.append_assoc, colon_of_blanks hstart hnone] at hcolon
  obtain ⟨⟨before', after'⟩, hcut, heq⟩ := Option.map_eq_some_iff.mp hcolon
  obtain ⟨hbefore, rfl⟩ := Prod.mk.inj heq
  rw [List.append_cancel_left hbefore, List.append_assoc] at hcut
  exact colon_of_append_blanks hstop hnone hcut

/-! ## The mark of importance -/

theorem isMarked_append (text : List Char) : isMarked (text ++ importantMark) = true := by
  have hmark : importantMark.map Char.toLower = importantMark := by decide
  simp [isMarked, hmark]

theorem unmarked_append (text : List Char) : unmarked (text ++ importantMark) = trimEnd text := by
  simp [unmarked]

theorem trimmed_unmarked {value : List Char} (h : Trimmed value) : Trimmed (unmarked value) := by
  refine ⟨?_, fun c hc => trimEnd_getLast hc⟩
  intro c hc
  have hne : trimEnd (value.take (value.length - importantMark.length)) ≠ [] := by
    intro hnil
    simp [unmarked, hnil] at hc
  rw [unmarked, trimEnd_head?_of_ne_nil hne, List.head?_take] at hc
  split at hc
  · cases hc
  · exact h.1 c hc

/-! ## What is read -/

/-- A declaration is found in a head that is cut at a colon. -/
theorem cases_of_read {text : List Char} {content : Content}
    (h : read text = some content) :
    ∃ before after value important,
      content = .declaration (String.ofList (trim before)) (String.ofList value) important ∧
        cutAtColon text = some (before, after) ∧ trim before ≠ [] ∧
        (important = true ∧ isMarked (trim after) = true ∧ value = unmarked (trim after) ∨
          important = false ∧ isMarked (trim after) = false ∧ value = trim after) := by
  rw [read] at h
  split at h
  · cases h
  · next before after hcut =>
      split at h
      · cases h
      · next hne =>
          cases h
          cases hmark : isMarked (trim after) with
          | true =>
              exact ⟨before, after, _, true, by rw [ofParts, if_pos hmark], hcut, hne,
                .inl ⟨rfl, hmark, rfl⟩⟩
          | false =>
              exact ⟨before, after, _, false, by rw [ofParts, if_neg (by simp [hmark])], hcut, hne,
                .inr ⟨rfl, hmark, rfl⟩⟩

/-! ## Reading what is written -/

def headText (property value : List Char) (important : Bool) : List Char :=
  property ++ ':' :: ' ' :: (value ++ if important then ' ' :: importantMark else [])

theorem read_headText {property value : List Char} {important : Bool}
    (hcut : cutAtColon (property ++ [':']) = some (property, [])) (hproperty : Trimmed property)
    (hne : property ≠ []) (hvalue : Trimmed value)
    (hmark : important = true ∨ isMarked value = false) :
    read (headText property value important) =
      some (.declaration (String.ofList property) (String.ofList value) important) := by
  rw [read, headText, cutAtColon, cutAtColonFrom_of_colon hcut]
  simp only [hproperty.trim_eq, if_neg hne, trim_cons_blank (c := ' ') rfl, Option.some.injEq]
  cases important with
  | false =>
      have hmark := hmark.resolve_left Bool.false_ne_true
      simp [hvalue.trim_eq, ofParts, hmark]
  | true =>
      have hend : Trimmed importantMark := by
        refine ⟨?_, ?_⟩ <;> rintro c ⟨⟩ <;> rfl
      by_cases hempty : value = []
      · subst hempty
        have hmarked := isMarked_append []
        have hunmarked := unmarked_append []
        rw [List.nil_append] at hmarked hunmarked
        simp [trim_cons_blank (c := ' ') rfl, hend.trim_eq, ofParts, hmarked, hunmarked]
      · have htrimmed : Trimmed (value ++ ' ' :: importantMark) := by
          apply hvalue.append hempty
          rintro c ⟨⟩
          rfl
        have htrim : trimEnd (value ++ [' ']) = value := by
          rw [trimEnd_append_of_blanks _ isBlank_of_mem_space, trimEnd_eq_self hvalue.2]
        have happend : value ++ ' ' :: importantMark = (value ++ [' ']) ++ importantMark := by simp
        simp only [if_true, htrimmed.trim_eq, ofParts]
        rw [happend, isMarked_append, unmarked_append, htrim, if_pos rfl]

/-! ## Counting -/

private theorem count_unmarked {c : Char} (hblank : isBlank c = false)
    (hmark : c.toLower ∉ importantMark) {value : List Char} (h : isMarked value = true) :
    (unmarked value).count c = value.count c := by
  have hdrop : (value.drop (value.length - importantMark.length)).count c = 0 := by
    rw [List.count_eq_zero]
    intro hmem
    apply hmark
    rw [← eq_of_beq h]
    exact List.mem_map_of_mem hmem
  rw [unmarked, count_trimEnd hblank]
  conv =>
    rhs
    rw [← List.take_append_drop (value.length - importantMark.length) value, List.count_append,
      hdrop, Nat.add_zero]

/-- Nothing but blanks and the letters of the mark is lost between a head and
what is written for it. -/
theorem count_headText {c : Char} (hblank : isBlank c = false)
    (hmark : c.toLower ∉ importantMark) (hlower : c ∉ importantMark)
    {text : List Char} {property value : String} {important : Bool}
    (h : read text = some (.declaration property value important)) :
    (headText property.toList value.toList important).count c = text.count c := by
  have hspace : ' ' ≠ c := ne_of_isBlank rfl hblank
  obtain ⟨before, after, value', important', hcontent, hcut, -, hvalue⟩ := cases_of_read h
  cases hcontent
  have himportant : (if important then ' ' :: importantMark else []).count c = 0 := by
    cases important with
    | false => rfl
    | true => rw [if_pos rfl, List.count_cons_of_ne hspace, List.count_eq_zero.mpr hlower]
  have hcount : value'.count c = after.count c := by
    rcases hvalue with ⟨-, hmarked, rfl⟩ | ⟨-, -, rfl⟩
    · rw [count_unmarked hblank hmark hmarked, count_trim hblank]
    · exact count_trim hblank after
  rw [cutAtColonFrom_eq_append hcut, headText, String.toList_ofList, String.toList_ofList,
    List.count_append, List.count_append, List.count_cons, List.count_cons_of_ne hspace,
    List.count_append, himportant, Nat.add_zero, List.count_cons, count_trim hblank, hcount]

end Unnest.Source.Declaration
