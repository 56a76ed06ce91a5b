import Mathlib.Order.WellFounded
import Unnest.Proofs.Source.HeadText
import Unnest.Proofs.Source.Reads
import Unnest.Proofs.Text.Trim
import Unnest.Source.Parse

/-!
# Which colon cuts a declaration

The head of a declaration is scanned twice: when it is read, and when it is cut
at its colon. The scan of the head knows escapes, the second one does not. So
the cut is made at the first colon that is ordinary for the reader exactly if
both agree about each colon up to this one, and they do so if no backslash
takes the meaning from a quote, a bracket or a colon in front of it.
-/

namespace Unnest.Source

open Text

/-! ## First places -/

/-- The text is cut at the first colon behind a `before` with the property, and
not cut if there is none. -/
def CutAtFirst (P : List Char → Prop) (text : List Char) :
    Option (List Char × List Char) → Prop
  | none => ∀ before after, text = before ++ ':' :: after → ¬ P before
  | some (before, after) =>
      text = before ++ ':' :: after ∧ P before ∧
        ∀ before' after', text = before' ++ ':' :: after' → P before' →
          before.length ≤ before'.length

section CutAtFirst

variable {P Q : List Char → Prop} {text : List Char} {cut cut' : Option (List Char × List Char)}

theorem exists_cutAtFirst (P : List Char → Prop) (text : List Char) :
    ∃ cut, CutAtFirst P text cut := by
  by_cases h : ∃ before after, text = before ++ ':' :: after ∧ P before
  · obtain ⟨before, ⟨after, hsplit, hbefore⟩, hleast⟩ :=
      (measure List.length).wf.has_min
        {before | ∃ after, text = before ++ ':' :: after ∧ P before} h
    refine ⟨some (before, after), hsplit, hbefore, ?_⟩
    intro other behind hother hP
    exact Nat.le_of_not_lt (hleast other ⟨behind, hother, hP⟩)
  · exact ⟨none, fun before after hsplit hbefore => h ⟨before, after, hsplit, hbefore⟩⟩

private theorem CutAtFirst.unique (h : CutAtFirst P text cut) (h' : CutAtFirst P text cut') :
    cut = cut' := by
  match cut, cut' with
  | none, none => rfl
  | none, some (before, after) => exact absurd h'.2.1 (h before after h'.1)
  | some (before, after), none => exact absurd h.2.1 (h' before after h.1)
  | some (before, after), some (before', after') =>
      obtain ⟨hsplit, hbefore, hleast⟩ := h
      obtain ⟨hsplit', hbefore', hleast'⟩ := h'
      have hlength : before.length = before'.length :=
        Nat.le_antisymm (hleast _ _ hsplit' hbefore') (hleast' _ _ hsplit hbefore)
      obtain ⟨rfl, hafter⟩ := List.append_inj (hsplit.symm.trans hsplit') hlength
      cases hafter
      rfl

/-- Two properties have the same first colon exactly if they agree up to it. -/
theorem cutAtFirst_iff (hP : CutAtFirst P text cut) :
    CutAtFirst Q text cut ↔
      ∀ before after, text = before ++ ':' :: after →
        (∀ other behind, text = other ++ ':' :: behind → Q other →
          before.length ≤ other.length) → (P before ↔ Q before) := by
  constructor
  · intro hQ before after hsplit hfirst
    match cut with
    | none => exact iff_of_false (hP before after hsplit) (hQ before after hsplit)
    | some (first, behind) =>
        obtain ⟨hsplit', hPfirst, hPleast⟩ := hP
        obtain ⟨-, hQfirst, hQleast⟩ := hQ
        rcases Nat.lt_or_eq_of_le (hfirst first behind hsplit' hQfirst) with hlt | hlength
        · have hlt : ¬ first.length ≤ before.length := Nat.not_le_of_lt hlt
          exact iff_of_false (fun h => hlt (hPleast before after hsplit h))
            fun h => hlt (hQleast before after hsplit h)
        · obtain ⟨rfl, -⟩ := List.append_inj (hsplit.symm.trans hsplit') hlength
          exact iff_of_true hPfirst hQfirst
  · -- the first colon of `Q` is that of `P` too, and there is only one
    intro hagree
    obtain ⟨cut', hQ⟩ := exists_cutAtFirst Q text
    have hP' : CutAtFirst P text cut' := by
      match cut' with
      | none =>
          intro before after hsplit hbefore
          have hiff := hagree before after hsplit fun other behind hother h =>
            absurd h (hQ other behind hother)
          exact hQ before after hsplit (hiff.mp hbefore)
      | some (first, behind) =>
          obtain ⟨hsplit, hfirst, hleast⟩ := hQ
          refine ⟨hsplit, (hagree first behind hsplit hleast).mpr hfirst, ?_⟩
          intro before after hbefore hPbefore
          apply Nat.le_of_not_lt
          intro hlt
          have hiff := hagree before after hbefore fun other behind hother h =>
            Nat.le_trans (Nat.le_of_lt hlt) (hleast other behind hother h)
          exact Nat.not_le_of_lt hlt (hleast before after hbefore (hiff.mp hPbefore))
    rw [hP.unique hP']
    exact hQ

theorem cutAtFirst_nil (P : List Char → Prop) : CutAtFirst P [] none := by
  intro before after hsplit
  simp at hsplit

theorem cutAtFirst_here (h : P []) : CutAtFirst P (':' :: text) (some ([], text)) :=
  ⟨rfl, h, fun _ _ _ _ => Nat.zero_le _⟩

theorem cutAtFirst_cons {c : Char} (hc : ¬ (c = ':' ∧ P []))
    (h : CutAtFirst (fun before => P (c :: before)) text cut) :
    CutAtFirst P (c :: text) (cut.map fun (before, after) => (c :: before, after)) := by
  -- a colon of the longer text is a later one, since the first does not count
  have hlater {before after : List Char} (hsplit : c :: text = before ++ ':' :: after)
      (hbefore : P before) : ∃ before', before = c :: before' ∧ text = before' ++ ':' :: after := by
    cases before with
    | nil =>
        cases hsplit
        exact absurd ⟨rfl, hbefore⟩ hc
    | cons d before' =>
        cases hsplit
        exact ⟨before', rfl, rfl⟩
  match cut with
  | none =>
      intro before after hsplit hbefore
      obtain ⟨before', rfl, hsplit'⟩ := hlater hsplit hbefore
      exact h before' after hsplit' hbefore
  | some (first, behind) =>
      obtain ⟨rfl, hfirst, hleast⟩ := h
      refine ⟨rfl, hfirst, ?_⟩
      intro before after hsplit hbefore
      obtain ⟨before', rfl, hsplit'⟩ := hlater hsplit hbefore
      exact Nat.succ_le_succ (hleast before' after hsplit' hbefore)

end CutAtFirst

/-! ## The splitter -/

namespace Declaration

/-- Where the splitter stands: in the string that the quote began, if any, and
at a depth of brackets. -/
structure View where
  quote? : Option Char := none
  depth : Nat := 0
deriving DecidableEq

def View.step (view : View) (c : Char) : View :=
  match view.quote? with
  | some q => ⟨if c = q then none else some q, view.depth⟩
  | none => ⟨if isQuote c then some c else none, depthAfter view.depth c⟩

def View.over (view : View) (text : List Char) : View :=
  text.foldl View.step view

def Outside (before : List Char) : Prop :=
  ({} : View).over before = {}

instance (before : List Char) : Decidable (Outside before) :=
  inferInstanceAs (Decidable (_ = _))

private theorem cutAtColonFrom_cons (view : View) (c : Char) (rest : List Char) :
    cutAtColonFrom view.quote? view.depth (c :: rest) =
      if c = ':' ∧ view = {} then some ([], rest)
      else
        (cutAtColonFrom (view.step c).quote? (view.step c).depth rest).map
          fun (before, after) => (c :: before, after) := by
  obtain ⟨quote?, depth⟩ := view
  cases quote? with
  | none => simp [cutAtColonFrom, View.step]
  | some q => simp [cutAtColonFrom, View.step]

private theorem cutAtFirst_cutAtColonFrom (view : View) (text : List Char) :
    CutAtFirst (fun before => view.over before = {}) text
      (cutAtColonFrom view.quote? view.depth text) := by
  induction text generalizing view with
  | nil => exact cutAtFirst_nil _
  | cons c rest ih =>
      rw [cutAtColonFrom_cons]
      split
      · next hcolon =>
          rw [hcolon.1]
          exact cutAtFirst_here hcolon.2
      · next hcolon => exact cutAtFirst_cons hcolon (ih (view.step c))

/-- The splitter cuts at the first colon at which it stands outside. -/
theorem cutAtFirst_cutAtColon (text : List Char) :
    CutAtFirst Outside text (cutAtColon text) :=
  cutAtFirst_cutAtColonFrom {} text

end Declaration

/-! ## The scan of the head -/

namespace Head

/-- Whether the reader met an ordinary colon behind `before`. -/
def MeetsColon (input before : List Char) : Prop :=
  ∃ rest, Reads input before {} (':' :: rest)

def Place.quote? : Place → Option Char
  | string quote _ | stringEscaped quote _ => some quote
  | _ => none

def Scan.view (scan : Scan) : Declaration.View :=
  ⟨scan.place.quote?, scan.depth⟩

/-- Whether a backslash takes from `c` what it means to the splitter. -/
def Place.hides (place : Place) (c : Char) : Bool :=
  match place with
  | escaped => isQuote c || c == '(' || c == '[' || c == ')' || c == ']' || c == ':'
  | stringEscaped quote _ => c == quote
  | _ => false

/-- Whether nothing is hidden up to the first ordinary colon. -/
def Scan.unhidden (scan : Scan) : List Char → Bool
  | [] => true
  | c :: rest =>
      if scan.stops c ∨ c = ':' ∧ scan = {} then true
      else !scan.place.hides c && (scan.step c rest).unhidden rest

variable {input text left : List Char} {scan : Scan}

private theorem Place.isQuote_next {place : Place}
    (h : ∀ q ∈ place.quote?, isQuote q = true) (c : Char) (rest : List Char) :
    ∀ q ∈ (place.next c rest).quote?, isQuote q = true := by
  intro q hq
  cases place with
  | plain =>
      rw [Place.next] at hq
      split at hq
      · cases hq
      · split at hq
        · next hquote =>
            cases hq
            exact hquote
        · split at hq <;> cases hq
  | escaped => cases hq
  | string quote start =>
      rw [Place.next] at hq
      split at hq
      · exact h q hq
      · split at hq
        · cases hq
        · exact h q hq
  | stringEscaped quote start => exact h q hq
  | commentOpening start => cases hq
  | comment start star =>
      rw [Place.next] at hq
      split at hq <;> cases hq

theorem Reads.isQuote (h : Reads input text scan left) :
    ∀ q ∈ scan.place.quote?, Text.isQuote q = true := by
  induction h with
  | start => simp [Place.quote?]
  | step _ _ _ ih => exact Place.isQuote_next ih _ _

theorem depthAfter_of_not_bracket {c : Char} (hopen : ¬ (c = '(' ∨ c = '['))
    (hclose : ¬ (c = ')' ∨ c = ']')) (depth : Nat) : depthAfter depth c = depth := by
  rw [depthAfter, if_neg hopen, if_neg hclose]

theorem Place.quote?_next_plain {c : Char} {rest : List Char} (h : opensComment c rest = false) :
    (Place.next .plain c rest).quote? = if Text.isQuote c then some c else none := by
  rw [Place.next, if_neg (by simp [h])]
  by_cases hquote : Text.isQuote c = true
  · rw [if_pos hquote, if_pos hquote]
    rfl
  · rw [if_neg hquote, if_neg hquote]
    by_cases hescape : c = '\\'
    · rw [if_pos hescape]
      rfl
    · rw [if_neg hescape]
      rfl

/-- A backslash in a string does not end it, since it is no quote. -/
theorem Place.quote?_next_string {quote : Char} (h : Text.isQuote quote = true)
    (start : List Char) (c : Char) (rest : List Char) :
    (Place.next (.string quote start) c rest).quote? = if c = quote then none else some quote := by
  rw [Place.next]
  by_cases hescape : c = '\\'
  · have hne : c ≠ quote := by
      rintro rfl
      rw [hescape] at h
      cases h
    rw [if_pos hescape, if_neg hne]
    rfl
  · rw [if_neg hescape]
    by_cases hc : c = quote
    · rw [if_pos hc, if_pos hc]
      rfl
    · rw [if_neg hc, if_neg hc]
      rfl

/-- What is kept moves the view as the splitter does, unless it is hidden. -/
theorem view_step {c : Char} {rest : List Char} (hquote : ∀ q ∈ scan.place.quote?, isQuote q = true)
    (hkeeps : scan.place.keeps c rest = true) (hhides : scan.place.hides c = false) :
    (scan.step c rest).view = scan.view.step c := by
  obtain ⟨place, depth⟩ := scan
  cases place with
  | plain =>
      have hopens : opensComment c rest = false := by simpa [Place.keeps] using hkeeps
      have hdepth : ((⟨.plain, depth⟩ : Scan).step c rest).depth = depthAfter depth c := by
        simp [Scan.step]
      exact congrArg₂ Declaration.View.mk (Place.quote?_next_plain hopens) hdepth
  | escaped =>
      simp only [Place.hides, Bool.or_eq_false_iff, beq_eq_false_iff_ne] at hhides
      obtain ⟨⟨⟨⟨⟨hc, hround⟩, hsquare⟩, hround'⟩, hsquare'⟩, -⟩ := hhides
      have hdepth := depthAfter_of_not_bracket (not_or.mpr ⟨hround, hsquare⟩)
        (not_or.mpr ⟨hround', hsquare'⟩) depth
      simp [Scan.step, Scan.view, Place.next, Place.quote?, Declaration.View.step, hc, hdepth]
  | string quote start =>
      have hdepth : ((⟨.string quote start, depth⟩ : Scan).step c rest).depth = depth := by
        simp [Scan.step]
      have hnext := Place.quote?_next_string (hquote quote rfl) start c rest
      exact congrArg₂ Declaration.View.mk hnext hdepth
  | stringEscaped quote start =>
      have hne : c ≠ quote := by simpa [Place.hides] using hhides
      simp [Scan.step, Scan.view, Place.next, Place.quote?, Declaration.View.step, hne]
  | commentOpening start => cases hkeeps
  | comment start star => cases hkeeps

theorem view_step_of_not_keeps {c : Char} {rest : List Char}
    (hkeeps : scan.place.keeps c rest = false) : (scan.step c rest).view = scan.view := by
  obtain ⟨place, depth⟩ := scan
  cases place with
  | plain =>
      have hopens : opensComment c rest = true := by simpa [Place.keeps] using hkeeps
      obtain ⟨rfl, -⟩ : c = '/' ∧ rest.head? = some '*' := by simpa [opensComment] using hopens
      simp [Scan.step, Scan.view, Place.next, hopens, Place.quote?, depthAfter]
  | commentOpening start => rfl
  | comment start star =>
      simp only [Scan.step, Scan.view, Place.next]
      split <;> rfl
  | _ => cases hkeeps

/-- Up to the first ordinary colon nothing is hidden from the splitter. -/
theorem Reads.unhidden (h : Reads input text scan left)
    (hunhidden : ({} : Scan).unhidden input = true) :
    (∃ colon, MeetsColon input colon ∧ colon.length < text.length) ∨
      scan.unhidden left = true := by
  induction h with
  | start => exact .inr hunhidden
  | @step text scan c rest hreads hstops _ ih =>
      rcases ih with ⟨colon, hcolon, hlt⟩ | hshown
      · refine .inl ⟨colon, hcolon, Nat.lt_of_lt_of_le hlt ?_⟩
        rw [List.length_append]
        exact Nat.le_add_right _ _
      · rw [Scan.unhidden] at hshown
        split at hshown
        · next hend =>
            obtain ⟨rfl, rfl⟩ := hend.resolve_left (by simp [hstops])
            refine .inl ⟨text, ⟨rest, hreads⟩, ?_⟩
            have hkeeps : ({} : Scan).place.keeps ':' rest = true := rfl
            rw [if_pos hkeeps, List.length_append]
            exact Nat.lt_succ_self _
        · rw [Bool.and_eq_true] at hshown
          exact .inr hshown.2

/-- The simulation: as far as nothing is hidden, the splitter sees of the text
what it should see of the scan. -/
theorem Reads.over_eq (h : Reads input text scan left)
    (hunhidden : ({} : Scan).unhidden input = true)
    (hfirst : ∀ colon, MeetsColon input colon → text.length ≤ colon.length) :
    ({} : Declaration.View).over text = scan.view := by
  induction h with
  | start => rfl
  | @step text scan c rest hreads hstops _ ih =>
      have hle : text.length ≤ (text ++ if scan.place.keeps c rest then [c] else []).length := by
        rw [List.length_append]
        exact Nat.le_add_right _ _
      have hview := ih fun colon hcolon => Nat.le_trans hle (hfirst colon hcolon)
      cases hkeeps : scan.place.keeps c rest with
      | false =>
          rw [if_neg Bool.false_ne_true, List.append_nil, hview, view_step_of_not_keeps hkeeps]
      | true =>
          -- were this the first ordinary colon, it would be shorter than itself
          have hhides : scan.place.hides c = false := by
            rcases hreads.unhidden hunhidden with ⟨colon, hcolon, hlt⟩ | hshown
            · exact absurd hlt (Nat.not_lt_of_le (Nat.le_trans hle (hfirst colon hcolon)))
            · rw [Scan.unhidden] at hshown
              split at hshown
              · next hend =>
                  obtain ⟨rfl, rfl⟩ := hend.resolve_left (by simp [hstops])
                  have hle := hfirst text ⟨rest, hreads⟩
                  rw [hkeeps, if_pos rfl, List.length_append] at hle
                  exact absurd hle (Nat.not_succ_le_self _)
              · rw [Bool.and_eq_true, Bool.not_eq_true'] at hshown
                exact hshown.1
          rw [if_pos rfl, view_step hreads.isQuote hkeeps hhides, ← hview,
            Declaration.View.over, List.foldl_append]
          rfl

/-! ## Ordinary colons in the text -/

def State.over (state : State) (text : List Char) : State :=
  text.foldl State.step state

/-- The state of a scan depends on what was kept alone. -/
theorem Reads.state_eq (h : Reads input text scan left) : scan.state = ({} : State).over text := by
  induction h with
  | start => rfl
  | @step text scan c rest _ _ _ ih =>
      cases hkeeps : scan.place.keeps c rest with
      | false =>
          rw [if_neg Bool.false_ne_true, List.append_nil, state_step_of_not_keeps hkeeps, ih]
      | true =>
          rw [if_pos rfl, state_step (inComment_of_keeps hkeeps) hkeeps, ih, State.over,
            State.over, List.foldl_append]
          rfl

theorem MeetsColon.over_eq {before : List Char} (h : MeetsColon input before) :
    ({} : State).over before = {} := by
  obtain ⟨rest, hreads⟩ := h
  exact hreads.state_eq.symm

theorem MeetsColon.exists_after {before : List Char} (h : MeetsColon input before)
    (hread : read input = .ok (text, left)) : ∃ after, text = before ++ ':' :: after := by
  obtain ⟨rest, hreads⟩ := h
  obtain ⟨after, htext, -⟩ := (hreads.step rfl rfl).exists_of_read hread
  have hkeeps : ({} : Scan).place.keeps ':' rest = true := rfl
  rw [if_pos hkeeps, List.append_assoc] at htext
  exact ⟨after, htext⟩

/-- Up to the first ordinary colon, reader and splitter agree about each colon. -/
theorem outside_iff_meetsColon (hread : read input = .ok (text, left))
    (hunhidden : ({} : Scan).unhidden input = true) {before after : List Char}
    (htext : text = before ++ ':' :: after)
    (hfirst : ∀ colon, MeetsColon input colon → before.length ≤ colon.length) :
    Declaration.Outside before ↔ MeetsColon input before := by
  constructor
  · intro houtside
    obtain ⟨_, hend, -⟩ := exists_reads_of_read hread
    obtain ⟨⟨place, depth⟩, rest, hreads, hkeeps⟩ := hend.exists_of_append htext
    rw [Declaration.Outside, hreads.over_eq hunhidden hfirst] at houtside
    obtain ⟨hquote, rfl⟩ := Declaration.View.mk.inj houtside
    cases place with
    | plain => exact ⟨rest, hreads⟩
    | escaped =>
        -- the colon would be hidden
        rcases hreads.unhidden hunhidden with ⟨colon, hcolon, hlt⟩ | hshown
        · exact absurd (hfirst colon hcolon) (Nat.not_le_of_lt hlt)
        · cases hshown
    | string quote start => cases hquote
    | stringEscaped quote start => cases hquote
    | commentOpening start => cases hkeeps
    | comment start star => cases hkeeps
  · rintro ⟨rest, hreads⟩
    exact hreads.over_eq hunhidden hfirst

end Head

/-! ## The cut of a declaration -/

/-- The head of a declaration is cut where its reader met the first ordinary
colon, and is refused only if there is none, or nothing stands in front of it. -/
structure CutAsRead (input text : List Char) : Prop where
  cut : CutAtFirst (Head.MeetsColon input) text (Declaration.cutAtColon text)
  read_none : Declaration.read text = none →
    Declaration.cutAtColon text = none ∨
      ∃ before after, Declaration.cutAtColon text = some (before, after) ∧
        ∀ c ∈ before, isBlank c = true
  read_some {content : Content} : Declaration.read text = some content →
    ∃ before after, Declaration.cutAtColon text = some (before, after) ∧
      content = Declaration.ofParts (trim before) (trim after)

private theorem cutAsRead_of_cut {input text : List Char}
    (h : CutAtFirst (Head.MeetsColon input) text (Declaration.cutAtColon text)) :
    CutAsRead input text := by
  refine ⟨h, ?_, ?_⟩
  · intro hnone
    rw [Declaration.read] at hnone
    split at hnone
    · next hcut => exact .inl hcut
    · next before after hcut =>
        split at hnone
        · next hblank => exact .inr ⟨before, after, hcut, isBlank_of_trim_eq_nil hblank⟩
        · cases hnone
  · intro content hsome
    rw [Declaration.read] at hsome
    split at hsome
    · cases hsome
    · next before after hcut =>
        split at hsome
        · cases hsome
        · cases hsome
          exact ⟨before, after, hcut, rfl⟩

/-- A head is cut as it was read exactly if reader and splitter agree about each
colon up to the first ordinary one, and so if nothing is hidden up to there. -/
theorem cutAsRead_of_read {input text left : List Char} (h : Head.read input = .ok (text, left)) :
    (CutAsRead input text ↔
      ∀ before after, text = before ++ ':' :: after →
        (∀ colon, Head.MeetsColon input colon → before.length ≤ colon.length) →
          (Declaration.Outside before ↔ Head.MeetsColon input before)) ∧
    (({} : Head.Scan).unhidden input = true → CutAsRead input text) := by
  have hiff : CutAsRead input text ↔
      ∀ before after, text = before ++ ':' :: after →
        (∀ colon, Head.MeetsColon input colon → before.length ≤ colon.length) →
          (Declaration.Outside before ↔ Head.MeetsColon input before) := by
    constructor
    · intro hcut before after htext hfirst
      apply (cutAtFirst_iff (Declaration.cutAtFirst_cutAtColon text)).mp hcut.cut before after htext
      exact fun other behind _ hother => hfirst other hother
    · intro hagree
      apply cutAsRead_of_cut
      apply (cutAtFirst_iff (Declaration.cutAtFirst_cutAtColon text)).mpr
      intro before after htext hfirst
      apply hagree before after htext
      intro colon hcolon
      obtain ⟨behind, hbehind⟩ := hcolon.exists_after h
      exact hfirst colon behind hbehind hcolon
  refine ⟨hiff, fun hunhidden => hiff.mpr ?_⟩
  intro before after htext hfirst
  exact Head.outside_iff_meetsColon h hunhidden htext hfirst

/-- The head of `b\-":\:"(c:):d`, in which only the last colon is ordinary. -/
theorem cutAsRead_of_read_quotedHead :
    Head.read "b\\-\":\\:\"(c:):d;".toList = .ok ("b\\-\":\\:\"(c:):d".toList, [';']) ∧
      ({} : Head.Scan).unhidden "b\\-\":\\:\"(c:):d;".toList = true ∧
      CutAsRead "b\\-\":\\:\"(c:):d;".toList "b\\-\":\\:\"(c:):d".toList := by
  have hread : Head.read "b\\-\":\\:\"(c:):d;".toList =
      .ok ("b\\-\":\\:\"(c:):d".toList, [';']) := by
    decide
  have hunhidden : ({} : Head.Scan).unhidden "b\\-\":\\:\"(c:):d;".toList = true := by
    decide
  exact ⟨hread, hunhidden, (cutAsRead_of_read hread).2 hunhidden⟩

/-- The reader meets the colon behind `b\:c` as the first ordinary one, and the
declaration is cut at the colon that the backslash escapes. -/
theorem not_cutAsRead_escapedColon :
    parse "a\x7bb\\:c:d\x7d" =
        .ok ⟨#[⟨.root, none, [1]⟩, ⟨.rule "a", some 0, [2]⟩,
          ⟨.declaration "b\\" "c:d" false, some 1, []⟩], by decide⟩ ∧
      Head.read "b\\:c:d\x7d".toList = .ok ("b\\:c:d".toList, ['\x7d']) ∧
      Head.MeetsColon "b\\:c:d\x7d".toList "b\\:c".toList ∧
      ¬ CutAsRead "b\\:c:d\x7d".toList "b\\:c:d".toList := by
  refine ⟨by decide +kernel, by decide, ⟨"d\x7d".toList, ?_⟩, ?_⟩
  · exact (((Head.Reads.start.step rfl rfl).step rfl rfl).step rfl rfl).step rfl rfl
  · intro hcut
    have hescaped : Head.MeetsColon "b\\:c:d\x7d".toList "b\\".toList := hcut.cut.2.1
    exact absurd hescaped.over_eq (by decide)

end Unnest.Source
