import Unnest.Source.Outline

/-!
# What a reader found

For each reader, what its input was like if it gave a result. Facts about parsed
sheets follow from these without a look into the readers again.
-/

namespace Unnest.Source

open Text

variable {piece : Piece} {left : List Char}

namespace Piece

theorem cases_of_readComment {body : List Char} (h : readComment body = .ok (piece, left)) :
    ∃ text, cutComment body = some (text, left) ∧
      piece = .leaf (.comment (String.ofList (trim text))) := by
  rw [readComment] at h
  split at h
  · cases h
  · next text rest hcut =>
      cases h
      exact ⟨text, hcut, rfl⟩

/-- The head behind the name of an at-rule ends in front of the block, if there
is one, or else of what is left. -/
theorem cases_of_readAtRule {input : List Char} (h : readAtRule input = .ok (piece, left)) :
    ∃ name params rest, name = input.takeWhile isNameChar ∧ name ≠ [] ∧
      Head.read (input.dropWhile isNameChar) = .ok (params, rest) ∧
        (piece = .opening (.atRule (String.ofList name) (String.ofList (trim params)) true) ∧
            rest = '\x7b' :: left ∨
          piece = .leaf (.atRule (String.ofList name) (String.ofList (trim params)) false) ∧
            rest = left) := by
  unfold readAtRule at h
  dsimp only at h
  split at h
  · cases h
  · next hne =>
      split at h
      · cases h
      · next params rest hread =>
          refine ⟨_, params, rest, rfl, hne, hread, ?_⟩
          have hpair := Except.ok.inj h
          unfold atRule at hpair
          split at hpair
          · cases hpair
            exact .inl ⟨rfl, rfl⟩
          · cases hpair
            exact .inr ⟨rfl, rfl⟩

theorem cases_of_readStatement {nested : Bool} {input : List Char}
    (h : readStatement nested input = .ok (piece, left)) :
    ∃ head rest, Head.read input = .ok (head, rest) ∧
      (piece = .opening (.rule (String.ofList (trim head))) ∧ rest = '\x7b' :: left ∨
        nested = true ∧ rest = left ∧
          ∃ content, Declaration.read head = some content ∧ piece = .leaf content) := by
  unfold readStatement at h
  split at h
  · cases h
  · next head body hread =>
      cases h
      exact ⟨head, _, hread, .inl ⟨rfl, rfl⟩⟩
  · next head rest _ hread =>
      split at h
      · next hnested =>
          split at h
          · next content hdecl =>
              cases h
              exact ⟨head, left, hread, .inr ⟨hnested, rfl, content, hdecl, rfl⟩⟩
          · cases h
      · cases h

theorem cases_of_next {nested : Bool} {c : Char} {rest : List Char}
    (h : next nested c rest = .ok (piece, left)) :
    (nested = true ∧ piece = .closing ∧ left = rest) ∨
      (c = '@' ∧ readAtRule rest = .ok (piece, left)) ∨
      (∃ body, c = '/' ∧ rest = '*' :: body ∧ readComment body = .ok (piece, left)) ∨
      (c ≠ '@' ∧ Head.opensComment c rest = false ∧
        readStatement nested (c :: rest) = .ok (piece, left)) := by
  unfold next at h
  split at h
  · split at h
    · next hnested =>
        cases h
        exact .inl ⟨hnested, rfl, rfl⟩
    · cases h
  · split at h
    · next hat => exact .inr (.inl ⟨hat, h⟩)
    · next hat =>
        split at h
        · next hopens =>
            simp only [Head.opensComment, Bool.and_eq_true, beq_iff_eq] at hopens
            obtain ⟨hslash, hstar⟩ := hopens
            obtain ⟨body, rfl⟩ := List.head?_eq_some_iff.mp hstar
            exact .inr (.inr (.inl ⟨body, hslash, rfl, h⟩))
        · next hopens => exact .inr (.inr (.inr ⟨hat, by simpa using hopens, h⟩))

end Piece

theorem isFiller_of_dropWhile {input : List Char} {c : Char} {rest : List Char}
    (h : input.dropWhile isFiller = c :: rest) : isFiller c = false := by
  have hhead := List.head?_dropWhile_not isFiller input
  rw [h] at hhead
  simpa using hhead

/-- In front of what is not skipped the reader looks for a piece, and goes on behind it. -/
theorem outlineFrom_cons {c : Char} (hc : isFiller c = false) (opened : List (List Char))
    (rest : List Char) :
    outlineFrom opened (c :: rest) =
      (Piece.next (!opened.isEmpty) c rest).bind fun (piece, left) =>
        (outlineFrom (piece.openAfter opened left) left).map (piece :: ·) := by
  have hskip : (c :: rest).dropWhile isFiller = c :: rest :=
    List.dropWhile_cons_of_neg (by simpa using hc)
  rw [outlineFrom.eq_def]
  split
  · next hnil => simp [hskip] at hnil
  · next hcons =>
      rw [hskip] at hcons
      cases hcons
      split
      · next hfault =>
          rw [hfault]
          rfl
      · next piece left hnext =>
          rw [hnext]
          show _ = (outlineFrom (piece.openAfter opened left) left).map (piece :: ·)
          cases outlineFrom (piece.openAfter opened left) left <;> rfl

theorem exists_next_of_outlineFrom {c : Char} {rest : List Char} {pieces : List Piece}
    {opened : List (List Char)} (hc : isFiller c = false)
    (h : outlineFrom opened (c :: rest) = .ok (piece :: pieces)) :
    ∃ left, Piece.next (!opened.isEmpty) c rest = .ok (piece, left) ∧
      outlineFrom (piece.openAfter opened left) left = .ok pieces := by
  rw [outlineFrom_cons hc] at h
  cases hnext : Piece.next (!opened.isEmpty) c rest with
  | error fault => simp [hnext, Except.bind] at h
  | ok found =>
      obtain ⟨piece', left⟩ := found
      cases hrest : outlineFrom (piece'.openAfter opened left) left with
      | error fault => simp [hnext, hrest, Except.bind, Except.map] at h
      | ok others =>
          simp only [hnext, hrest, Except.bind, Except.map, Except.ok.injEq, List.cons.injEq] at h
          obtain ⟨rfl, rfl⟩ := h
          exact ⟨left, rfl, hrest⟩

end Unnest.Source
