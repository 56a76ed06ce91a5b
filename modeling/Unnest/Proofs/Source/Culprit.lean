import Unnest.Proofs.Source.Assemble
import Unnest.Proofs.Source.ByOffset

/-!
# What a syntax error points at

A reader that fails blames a place, by what is left there: that is an end of
the source and begins with the character that the reason tells of. For heads
the place is the one at which a string or a comment began, which the scan has
remembered since.
-/

namespace Unnest

open Source Text

/-- Whether the reason may be given for the text `rest` at the end of `source`. -/
def Reason.Blames (source rest : List Char) : Reason → Prop
  | unclosedBlock => ∃ body, rest = '\x7b' :: body ∧ InnermostOpen source body
  | unexpectedClosing => rest.head? = some '\x7d'
  | unknownWord => ∃ c ∈ rest.head?, isBlank c = false ∧ c ≠ '@' ∧ c ≠ ';' ∧ c ≠ '\x7d'
  | unclosedComment => ∃ body, rest = '/' :: '*' :: body
  | unclosedString => ∃ c ∈ rest.head?, isQuote c = true
  | atRuleWithoutName => ∃ input, rest = '@' :: input ∧ ∀ c ∈ input.head?, isNameChar c = false

structure Fault.Blames (source input : List Char) (fault : Fault) : Prop where
  suffix : fault.rest <:+ input
  reason : fault.reason.Blames source fault.rest

theorem Fault.Blames.trans {source input input' : List Char} {fault : Fault}
    (h : fault.Blames source input) (hsuffix : input <:+ input') : fault.Blames source input' :=
  ⟨h.suffix.trans hsuffix, h.reason⟩

namespace Source

variable {source : List Char} {fault : Fault}

/-! ## Heads -/

namespace Head

def Place.Founded (source input : List Char) : Place → Prop
  | plain | escaped => True
  | string _ start | stringEscaped _ start => Fault.Blames source input ⟨.unclosedString, start⟩
  | commentOpening start | comment start _ => Fault.Blames source input ⟨.unclosedComment, start⟩

private theorem Place.Founded.next {input : List Char} {place : Place} {c : Char} {rest : List Char}
    (h : place.Founded source input) (hrest : c :: rest <:+ input) :
    (place.next c rest).Founded source input := by
  cases place with
  | plain =>
      rw [Place.next]
      split
      · next hopens =>
          simp only [opensComment, Bool.and_eq_true, beq_iff_eq] at hopens
          obtain ⟨rfl, hstar⟩ := hopens
          obtain ⟨body, rfl⟩ := List.head?_eq_some_iff.mp hstar
          exact ⟨hrest, body, rfl⟩
      · split
        · next hquote => exact ⟨hrest, c, rfl, hquote⟩
        · split <;> trivial
  | escaped => trivial
  | string quote start =>
      rw [Place.next]
      split
      · exact h
      · split
        · trivial
        · exact h
  | stringEscaped quote start => exact h
  | commentOpening start => exact h
  | comment start star =>
      rw [Place.next]
      split
      · trivial
      · exact h

theorem Reads.founded {input text left : List Char} {scan : Scan}
    (h : Reads input text scan left) : scan.place.Founded source input := by
  induction h with
  | start => trivial
  | step hreads _ _ ih => exact ih.next hreads.suffix

theorem Place.Founded.blames {input : List Char} {place : Place} (h : place.Founded source input)
    (hfault : place.faultAtEnd? = some fault) : fault.Blames source input := by
  cases place with
  | plain | escaped => cases hfault
  | string quote start | stringEscaped quote start | commentOpening start | comment start star =>
      cases hfault
      exact h

private theorem Place.faultAtEnd?_of_faultAt? {place : Place} {c : Char}
    (h : place.faultAt? c = some fault) : place.faultAtEnd? = some fault := by
  cases place with
  | string quote start =>
      rw [Place.faultAt?] at h
      split at h
      · exact h
      · cases h
  | _ => cases h

theorem blames_of_read_error {input : List Char} (h : read input = .error fault) :
    fault.Blames source input := by
  obtain ⟨text, scan, left, hreads, hfails⟩ := exists_reads_of_error h
  cases left with
  | nil => exact hreads.founded.blames hfails
  | cons c rest => exact hreads.founded.blames (Place.faultAtEnd?_of_faultAt? hfails.2)

end Head

/-! ## Pieces -/

namespace Piece

theorem blames_of_readComment_error {body : List Char} (h : readComment body = .error fault) :
    fault.Blames source ('/' :: '*' :: body) := by
  rw [readComment] at h
  split at h
  · cases h
    exact ⟨List.suffix_refl _, body, rfl⟩
  · cases h

theorem blames_of_readAtRule_error {input : List Char} (h : readAtRule input = .error fault) :
    fault.Blames source ('@' :: input) := by
  unfold readAtRule at h
  dsimp only at h
  split at h
  · next hname =>
      cases h
      refine ⟨List.suffix_refl _, input, rfl, ?_⟩
      intro c hc
      obtain ⟨rest, rfl⟩ := List.head?_eq_some_iff.mp hc
      by_contra hnameChar
      rw [List.takeWhile_cons_of_pos (by simpa using hnameChar)] at hname
      cases hname
  · split at h
    · next hread =>
        cases h
        have hname : input.dropWhile isNameChar <:+ input := List.dropWhile_suffix isNameChar
        exact (Head.blames_of_read_error hread).trans (hname.trans (List.suffix_cons '@' input))
    · cases h

/-- A statement is to blame for its head, or as a whole. -/
theorem cases_of_readStatement_error {nested : Bool} {input : List Char}
    (h : readStatement nested input = .error fault) :
    Head.read input = .error fault ∨ fault = ⟨.unknownWord, input⟩ := by
  unfold readStatement at h
  split at h
  · next hread =>
      cases h
      exact .inl hread
  · cases h
  · split at h
    · split at h
      · cases h
      · cases h
        exact .inr rfl
    · cases h
      exact .inr rfl

private theorem blames_of_next_error {nested : Bool} {c : Char} {rest : List Char}
    (hc : isFiller c = false) (h : next nested c rest = .error fault) :
    fault.Blames source (c :: rest) := by
  simp only [isFiller, Bool.or_eq_false_iff, beq_eq_false_iff_ne] at hc
  unfold next at h
  split at h
  · next hclosing =>
      split at h
      · cases h
      · cases h
        exact ⟨List.suffix_refl _, congrArg some hclosing⟩
  · next hclosing =>
      split at h
      · next hat =>
          rw [hat]
          exact blames_of_readAtRule_error h
      · next hat =>
          split at h
          · next hopens =>
              simp only [Head.opensComment, Bool.and_eq_true, beq_iff_eq] at hopens
              obtain ⟨rfl, hstar⟩ := hopens
              obtain ⟨body, rfl⟩ := List.head?_eq_some_iff.mp hstar
              exact blames_of_readComment_error h
          · rcases cases_of_readStatement_error h with hread | rfl
            · exact Head.blames_of_read_error hread
            · exact ⟨List.suffix_refl _, c, rfl, hc.1, hat, hc.2, hclosing⟩

end Piece

/-! ## Sheets -/

theorem Reads.blames {pieces : List Piece} {opened : List (List Char)} {left : List Char}
    (h : Reads source pieces opened left) (hfails : FailsAt fault opened left) :
    fault.Blames source source := by
  unfold FailsAt at hfails
  split at hfails
  · next hskip =>
      obtain ⟨body, hbody, rfl⟩ := hfails
      obtain ⟨outer, rfl⟩ := List.head?_eq_some_iff.mp hbody
      exact ⟨h.inside.opened body List.mem_cons_self, body, rfl, h.innermostOpen hskip⟩
  · next hskip =>
      have hblames : fault.Blames source (_ :: _) :=
        Piece.blames_of_next_error (isFiller_of_dropWhile hskip) hfails
      exact hblames.trans ((suffix_of_dropWhile hskip).trans h.inside.left)

private theorem Reason.Blames.ne_nil {reason : Reason} {rest : List Char}
    (h : reason.Blames source rest) : rest ≠ [] := by
  rintro rfl
  cases reason <;> simp [Reason.Blames] at h

end Source

/-! ## Positions -/

/-- The error points at the character `c` of the source, behind `before`. -/
structure SyntaxError.PointsAt (source : String) (error : SyntaxError) (before : List Char)
    (c : Char) (rest : List Char) : Prop where
  toList : source.toList = before ++ c :: rest
  offset : error.position.offset = byteLength before
  lt : error.position.offset < source.utf8ByteSize
  isValid : (⟨error.position.offset⟩ : String.Pos.Raw).IsValid source
  get? : String.Pos.Raw.get? source ⟨error.position.offset⟩ = some c
  blames : error.reason.Blames source.toList (c :: rest)
  line : error.position.line = before.count '\n' + 1
  /-- The column counts the characters behind the last newline. -/
  column : ∃ above last, before = above ++ last ∧ (∀ d ∈ above.getLast?, d = '\n') ∧
    '\n' ∉ last ∧ error.position.column = last.length + 1

theorem exists_pointsAt_of_blames {source : String} {fault : Fault}
    (h : fault.Blames source.toList source.toList) :
    ∃ before c rest, (SyntaxError.ofFault source.toList fault).PointsAt source before c rest := by
  obtain ⟨reason, left⟩ := fault
  obtain ⟨⟨before, hsplit⟩, hreason⟩ := h
  obtain ⟨c, rest, rfl⟩ := List.exists_cons_of_ne_nil (Reason.Blames.ne_nil hreason)
  have hcuts : CutsAt source (c :: rest) _ := cutsAt_of_suffix ⟨before, hsplit⟩
  have hposition : Position.ofRest source.toList (c :: rest) = .after before := by
    rw [← hsplit, Position.ofRest_append]
  obtain ⟨above, habove, hnewline⟩ := exists_above_lastLine before
  refine ⟨before, c, rest, ⟨hsplit.symm, ?_, hcuts.lt_utf8ByteSize, hcuts.isValid, hcuts.get?,
    hreason, ?_, ⟨above, lastLine before, habove, hnewline, newline_not_mem_lastLine before, ?_⟩⟩⟩
  all_goals
    rw [SyntaxError.ofFault, hposition]
    rfl

/-! ## Wording -/

private theorem message_ne_append {start : String} (hlength : 2 ≤ start.toList.length)
    (hstart : start.toList.take 2 ∉ [['U', 'n'], ['A', 't']]) (reason : Reason) (rest : String) :
    reason.message ≠ start ++ rest := by
  intro heq
  apply hstart
  rw [← List.take_append_of_le_length hlength, ← String.toList_append, ← heq]
  cases reason <;> decide

/-- No reason reads as a refused edit does. -/
theorem Reason.message_ne (reason : Reason) (refused : EditError) :
    reason.message ≠ refused.message := by
  have hnode (node : NodeId) (rest : String) :
      reason.message ≠ "Node " ++ toString node ++ rest := by
    rw [String.append_assoc]
    exact message_ne_append (by decide) (by decide) reason _
  cases refused with
  | unknownNode node => exact hnode node _
  | notAContainer node => exact hnode node _
  | notARule node => exact hnode node _
  | duplicateRoot => cases reason <;> decide
  | cannotRemoveRoot => cases reason <;> decide
  | wouldCreateCycle node parent =>
      show reason.message ≠ "Moving node " ++ toString node ++ " under " ++ toString parent ++ _
      rw [String.append_assoc, String.append_assoc, String.append_assoc]
      exact message_ne_append (by decide) (by decide) reason _
  | malformed malformation =>
      show reason.message ≠ "Malformed tree at node " ++ toString malformation.node ++ ": " ++ _
      rw [String.append_assoc, String.append_assoc]
      exact message_ne_append (by decide) (by decide) reason _

/-! ## Parsing -/

theorem exists_fault_of_parse_error {source : String} {error : SyntaxError}
    (h : parse source = .error error) :
    ∃ fault, outline source.toList = .error fault ∧ error = .ofFault source.toList fault := by
  rw [parse] at h
  split at h
  · next fault houtline =>
      cases h
      exact ⟨fault, houtline, rfl⟩
  · cases h

/-- Whatever the source: all places where the reader stands are boundaries of
characters, and reading by offsets finds every slice and gives the same. No node that
is added is refused, and an error has one of the reasons and points at the character
that this tells of. -/
theorem parse_error_points_at_culprit (source : String) :
    (∀ place, Stands source.toList place →
      CutsAt source place (Position.ofRest source.toList place).offset) ∧
    ByOffset.parse? source = some (parse source) ∧
    (∀ pieces opened left, Reads source.toList pieces opened left →
      Sheet.empty.assemble [] pieces = .ok (.ofPieces pieces)) ∧
    (∀ s, parse source = .ok s →
      ∃ pieces left, Reads source.toList pieces [] left ∧ Sheet.empty.assemble [] pieces = .ok s) ∧
    ∀ error, parse source = .error error →
      (∃ before c rest, error.PointsAt source before c rest) ∧
        ∀ refused : EditError, error.reason.message ≠ refused.message := by
  refine ⟨fun place hplace => cutsAt_of_suffix hplace.suffix, ByOffset.parse?_eq source,
    fun pieces opened left hreads => hreads.assemble_eq, ?_, ?_⟩
  · intro s h
    obtain ⟨forest, houtline, rfl, -, -⟩ := exists_forest_of_parse h
    obtain ⟨left, hreads, -⟩ := exists_reads_of_outline houtline
    exact ⟨forest.pieces, left, hreads, hreads.assemble_eq⟩
  · intro error h
    obtain ⟨fault, houtline, rfl⟩ := exists_fault_of_parse_error h
    obtain ⟨pieces, opened, left, hreads, hfails⟩ := exists_reads_of_outline_error houtline
    exact ⟨exists_pointsAt_of_blames (hreads.blames hfails), fault.reason.message_ne⟩

/-- In `é{`, a line break, `a{b{}` and another, the block of `a` is blamed. -/
theorem parse_error_points_at_culprit_openSheet :
    parse "é\x7b\na\x7bb\x7b\x7d\n" = .error ⟨.unclosedBlock, ⟨5, 2, 2⟩⟩ ∧
      ∃ before c rest, SyntaxError.PointsAt "é\x7b\na\x7bb\x7b\x7d\n"
        ⟨.unclosedBlock, ⟨5, 2, 2⟩⟩ before c rest := by
  have hparse : parse "é\x7b\na\x7bb\x7b\x7d\n" = .error ⟨.unclosedBlock, ⟨5, 2, 2⟩⟩ := by
    decide +kernel
  obtain ⟨-, -, -, -, herror⟩ := parse_error_points_at_culprit "é\x7b\na\x7bb\x7b\x7d\n"
  exact ⟨hparse, (herror _ hparse).1⟩

end Unnest
