import Unnest.Proofs.Source.Reads
import Unnest.Proofs.Source.Stored

/-!
# Reading with more text behind

The readers look ahead, and the end of the text ends a head as well as a
semicolon does. With a semicolon and more behind the text a head ends as before,
or it came to the end of the text and takes the semicolon, and then it is another
head. So it can be told from one semicolon behind a text whether anything behind
it changes what was read.
-/

namespace Unnest

open Source Text

namespace Source

/-! ## Heads -/

namespace Head

/-- The place in a longer text: strings and comments have begun with more text. -/
def Place.extend (suffix : List Char) : Place → Place
  | plain => plain
  | escaped => escaped
  | string quote start => string quote (start ++ suffix)
  | stringEscaped quote start => stringEscaped quote (start ++ suffix)
  | commentOpening start => commentOpening (start ++ suffix)
  | comment start star => comment (start ++ suffix) star

def Scan.extend (suffix : List Char) (scan : Scan) : Scan where
  place := scan.place.extend suffix
  depth := scan.depth

theorem Place.extend_eq_plain_iff {suffix : List Char} {place : Place} :
    place.extend suffix = plain ↔ place = plain := by
  cases place <;> simp [extend]

@[simp] theorem Scan.stops_extend (suffix : List Char) (scan : Scan) (c : Char) :
    (scan.extend suffix).stops c = scan.stops c := by
  rw [Bool.eq_iff_iff]
  simp [stops, extend, Place.extend_eq_plain_iff]

/-- Where the text may end, nothing has begun. -/
theorem Scan.extend_of_faultAtEnd? {scan : Scan} (h : scan.place.faultAtEnd? = none)
    (suffix : List Char) : scan.extend suffix = scan := by
  obtain ⟨place, depth⟩ := scan
  cases place with
  | plain | escaped => rfl
  | string quote start | stringEscaped quote start | commentOpening start | comment start star =>
      cases h

theorem Place.faultAt?_extend {suffix : List Char} {place : Place} {c : Char}
    (h : place.faultAt? c = none) : (place.extend suffix).faultAt? c = none := by
  cases place with
  | string quote start =>
      rw [faultAt?] at h
      split at h
      · cases h
      · next hc => exact if_neg hc
  | _ => rfl

section step

variable {suffix : List Char} {c : Char} {rest : List Char}
variable (hopens : opensComment c (rest ++ suffix) = opensComment c rest)
include hopens

theorem Place.keeps_extend (place : Place) :
    (place.extend suffix).keeps c (rest ++ suffix) = place.keeps c rest := by
  cases place <;> simp [extend, keeps, hopens]

private theorem Place.next_extend (place : Place) :
    (place.extend suffix).next c (rest ++ suffix) = (place.next c rest).extend suffix := by
  cases place with
  | plain =>
      simp only [extend, next, hopens]
      split
      · rfl
      · split
        · rfl
        · split <;> rfl
  | string quote start =>
      simp only [extend, next]
      split
      · rfl
      · split <;> rfl
  | comment start star =>
      simp only [extend, next]
      split <;> rfl
  | escaped => rfl
  | stringEscaped quote start => rfl
  | commentOpening start => rfl

private theorem Scan.step_extend (scan : Scan) :
    (scan.extend suffix).step c (rest ++ suffix) = (scan.step c rest).extend suffix := by
  simp only [step, extend, Place.next_extend hopens, Place.extend_eq_plain_iff]

end step

/-- With more text behind it a head is read up to where it ended, and on from
there. -/
theorem exists_readFrom_append {scan : Scan} {input text left : List Char}
    (h : readFrom scan input = .ok (text, left)) :
    ∃ last : Scan, last.Ends left ∧ ∀ suffix, suffix.head? ≠ some '*' →
      readFrom (scan.extend suffix) (input ++ suffix) =
        (readFrom (last.extend suffix) (left ++ suffix)).map
          fun (kept, behind) => (text ++ kept, behind) := by
  induction input generalizing scan text with
  | nil =>
      rw [readFrom] at h
      split at h
      · cases h
      · next hfault =>
          cases h
          refine ⟨scan, hfault, ?_⟩
          intro suffix _
          cases readFrom (scan.extend suffix) ([] ++ suffix) <;> rfl
  | cons c rest ih =>
      rcases cases_of_readFrom_cons h with ⟨hstops, rfl, rfl⟩ | ⟨hstops, hfault, text', hread, rfl⟩
      · refine ⟨scan, hstops, ?_⟩
        intro suffix _
        cases readFrom (scan.extend suffix) (c :: rest ++ suffix) <;> rfl
      · obtain ⟨last, hends, hlast⟩ := ih hread
        refine ⟨last, hends, ?_⟩
        intro suffix hsuffix
        have hopens : opensComment c (rest ++ suffix) = opensComment c rest :=
          opensComment_append fun hstar => absurd hstar hsuffix
        have hkeeps := Place.keeps_extend hopens scan.place
        rw [List.cons_append, readFrom, Scan.stops_extend, hstops, if_neg Bool.false_ne_true,
          Scan.step_extend hopens, hlast suffix hsuffix]
        simp only [Scan.extend, Place.faultAt?_extend hfault, hkeeps]
        cases readFrom _ (left ++ suffix) with
        | error fault => rfl
        | ok found => cases scan.place.keeps c rest <;> rfl

private theorem readFrom_semicolon {scan : Scan} (hend : scan.place.faultAtEnd? = none)
    (hstops : scan.stops ';' = false) : readFrom scan [';'] = .ok ([';'], []) := by
  rw [readFrom, hstops]
  obtain ⟨place, depth⟩ := scan
  cases place with
  | plain | escaped => rfl
  | string quote start | stringEscaped quote start | commentOpening start | comment start star =>
      cases hend

/-- A head ends in front of a semicolon behind the text as it does without it,
or comes to the end of the text and takes the semicolon. -/
theorem read_append_semicolon {input text left : List Char} (h : read input = .ok (text, left)) :
    (∀ rest, read (input ++ ';' :: rest) = .ok (text, left ++ ';' :: rest)) ∨
      left = [] ∧ read (input ++ [';']) = .ok (text ++ [';'], []) := by
  obtain ⟨last, hends, hlast⟩ := exists_readFrom_append h
  have hread (rest : List Char) : read (input ++ ';' :: rest) = _ := hlast (';' :: rest) (by simp)
  cases left with
  | cons c left =>
      left
      intro rest
      have hstops : (last.extend (';' :: rest)).stops c = true := by simpa [Scan.Ends] using hends
      rw [hread, List.cons_append, readFrom, if_pos hstops]
      simp [Except.map]
  | nil =>
      have hends : last.place.faultAtEnd? = none := hends
      simp only [Scan.extend_of_faultAtEnd? hends, List.nil_append] at hread
      cases hstops : last.stops ';' with
      | true =>
          left
          intro rest
          rw [hread, readFrom, if_pos hstops]
          simp [Except.map]
      | false =>
          right
          rw [hread, readFrom_semicolon hends hstops]
          exact ⟨rfl, rfl⟩

end Head

/-! ## Pieces -/

theorem cutComment_append_suffix {body text left : List Char}
    (h : cutComment body = some (text, left)) (suffix : List Char) :
    cutComment (body ++ suffix) = some (text, left ++ suffix) := by
  rw [cutComment_eq_append h, List.append_assoc,
    cutComment_append (not_mark_infix_of_cutComment h) (by simp)]
  simp [cutComment]

theorem takeWhile_isNameChar_append (input rest : List Char) :
    (input ++ ';' :: rest).takeWhile isNameChar = input.takeWhile isNameChar ∧
      (input ++ ';' :: rest).dropWhile isNameChar =
        input.dropWhile isNameChar ++ ';' :: rest := by
  induction input with
  | nil => exact ⟨rfl, rfl⟩
  | cons c input ih => cases hc : isNameChar c <;> simp [hc, ih]

namespace Piece

variable {piece : Piece} {left : List Char}

theorem readComment_append {body : List Char} (h : readComment body = .ok (piece, left))
    (suffix : List Char) : readComment (body ++ suffix) = .ok (piece, left ++ suffix) := by
  obtain ⟨text, hcut, rfl⟩ := cases_of_readComment h
  rw [readComment, cutComment_append_suffix hcut]

private theorem atRule_append_semicolon (name params left suffix : List Char) :
    atRule name params (left ++ ';' :: suffix) =
      ((atRule name params left).1, (atRule name params left).2 ++ ';' :: suffix) := by
  unfold atRule
  split
  · next heq =>
      cases left with
      | nil => cases heq
      | cons c left =>
          cases heq
          rfl
  · next hbrace =>
      split
      · exact absurd rfl (hbrace _)
      · rfl

/-- An at-rule is found again, unless it has no block and takes the semicolon
into its parameters. -/
theorem readAtRule_append_semicolon {input : List Char}
    (h : readAtRule input = .ok (piece, left)) :
    (∀ rest, readAtRule (input ++ ';' :: rest) = .ok (piece, left ++ ';' :: rest)) ∨
      left = [] ∧ (∃ content, piece = .leaf content) ∧
        ∃ piece', readAtRule (input ++ [';']) = .ok (piece', []) ∧ piece' ≠ piece := by
  obtain ⟨name, params, rest, rfl, hname, hread, -⟩ := cases_of_readAtRule h
  have hrule : atRule (input.takeWhile isNameChar) params rest = (piece, left) := by
    unfold readAtRule at h
    simpa only [if_neg hname, hread, Except.ok.injEq] using h
  have hagain {suffix params' left' : List Char}
      (hread' : Head.read (input.dropWhile isNameChar ++ ';' :: suffix) = .ok (params', left')) :
      readAtRule (input ++ ';' :: suffix) =
        .ok (atRule (input.takeWhile isNameChar) params' left') := by
    obtain ⟨htake, hdrop⟩ := takeWhile_isNameChar_append input suffix
    unfold readAtRule
    simp only [htake, hdrop, if_neg hname, hread']
  rcases Head.read_append_semicolon hread with hread' | ⟨rfl, hread'⟩
  · left
    intro suffix
    rw [hagain (hread' suffix), atRule_append_semicolon, hrule]
  · right
    cases hrule
    refine ⟨rfl, ⟨_, rfl⟩, _, hagain hread', ?_⟩
    intro heq
    simp only [leaf.injEq, Content.atRule.injEq, String.ofList_inj, true_and, and_true] at heq
    have hcount := congrArg (List.count ';') heq
    rw [count_trim rfl, count_trim rfl, List.count_append, List.count_singleton_self] at hcount
    exact Nat.succ_ne_self _ hcount

private theorem readStatement_declaration {input head left : List Char} {content : Content}
    (hread : Head.read input = .ok (head, left)) (hbrace : ∀ body, left ≠ '\x7b' :: body)
    (hcontent : Declaration.read head = some content) :
    readStatement true input = .ok (.leaf content, left) := by
  unfold readStatement
  split
  · next herror => cases hread.symm.trans herror
  · next hread' =>
      cases hread.symm.trans hread'
      exact absurd rfl (hbrace _)
  · next hread' =>
      cases hread.symm.trans hread'
      rw [if_pos rfl, hcontent]

/-- A statement is found again, unless it is a declaration at the very end. -/
theorem readStatement_append_semicolon {nested : Bool} {input : List Char}
    (h : readStatement nested input = .ok (piece, left)) :
    (∀ rest, readStatement nested (input ++ ';' :: rest) = .ok (piece, left ++ ';' :: rest)) ∨
      left = [] ∧ (∃ content, piece = .leaf content) ∧ nested = true := by
  obtain ⟨head, rest, hread, hpiece⟩ := cases_of_readStatement h
  rcases Head.read_append_semicolon hread with hread' | ⟨rfl, -⟩
  · left
    intro suffix
    rcases hpiece with ⟨rfl, rfl⟩ | ⟨rfl, rfl, content, hcontent, rfl⟩
    · rw [readStatement, hread' suffix]
      rfl
    · apply readStatement_declaration (hread' suffix) _ hcontent
      intro body hbody
      cases rest with
      | nil => cases hbody
      | cons c rest =>
          cases hbody
          rw [readStatement, hread] at h
          cases h
  · right
    rcases hpiece with ⟨-, hbrace⟩ | ⟨hnested, rfl, content, -, rfl⟩
    · cases hbrace
    · exact ⟨rfl, ⟨content, rfl⟩, hnested⟩

/-- Whatever piece is found, it is found again with a semicolon behind the text,
unless it has no block and ends with the text. If no block is open then, another
piece is found. -/
theorem next_append_semicolon {nested : Bool} {c : Char} {rest : List Char}
    (h : next nested c rest = .ok (piece, left)) :
    (∀ suffix, next nested c (rest ++ ';' :: suffix) = .ok (piece, left ++ ';' :: suffix)) ∨
      left = [] ∧ (∃ content, piece = .leaf content) ∧
        (nested = true ∨ ∃ piece', next nested c (rest ++ [';']) = .ok (piece', []) ∧
          piece' ≠ piece) := by
  have hopens (suffix : List Char) :
      Head.opensComment c (rest ++ ';' :: suffix) = Head.opensComment c rest :=
    Head.opensComment_append (by simp)
  by_cases hclosing : c = '\x7d'
  · simp only [next, if_pos hclosing] at h ⊢
    split at h
    · next hnested =>
        cases h
        exact .inl fun suffix => if_pos hnested
    · cases h
  by_cases hat : c = '@'
  · simp only [next, if_neg hclosing, if_pos hat] at h ⊢
    rcases readAtRule_append_semicolon h with hagain | ⟨hleft, hleaf, hother⟩
    · exact .inl hagain
    · exact .inr ⟨hleft, hleaf, .inr hother⟩
  by_cases hcomment : Head.opensComment c rest = true
  · simp only [next, if_neg hclosing, if_neg hat, hopens, if_pos hcomment] at h ⊢
    simp only [Head.opensComment, Bool.and_eq_true, beq_iff_eq] at hcomment
    obtain ⟨body, rfl⟩ := List.head?_eq_some_iff.mp hcomment.2
    exact .inl fun suffix => readComment_append h _
  · simp only [next, if_neg hclosing, if_neg hat, hopens, if_neg hcomment] at h ⊢
    rcases readStatement_append_semicolon h with hagain | ⟨hleft, hleaf, hnested⟩
    · exact .inl hagain
    · exact .inr ⟨hleft, hleaf, .inl hnested⟩

end Piece

/-! ## Sheets -/

theorem eq_nil_of_outlineFrom_nil {opened : List (List Char)} {pieces : List Piece}
    (h : outlineFrom opened [] = .ok pieces) : opened = [] := by
  cases opened with
  | nil => rfl
  | cons body outer =>
      rw [outlineFrom.eq_def] at h
      cases h

theorem Piece.openAfter_map (f : List Char → List Char) (opened : List (List Char))
    (left : List Char) (piece : Piece) :
    piece.openAfter (opened.map f) (f left) = (piece.openAfter opened left).map f := by
  cases piece with
  | opening content => rfl
  | leaf content => rfl
  | closing => exact List.map_tail.symm

private theorem outlineFrom_piece_append {opened : List (List Char)} {nested : Bool}
    {input behind : List Char} {c : Char} {rest left : List Char} {piece : Piece}
    (hnested : opened.isEmpty = !nested) (hskip : input.dropWhile isFiller = c :: rest)
    (hnext : Piece.next nested c (rest ++ behind) = .ok (piece, left)) :
    outlineFrom opened (input ++ behind) =
      (outlineFrom (piece.openAfter opened left) left).map (piece :: ·) := by
  have hsplit := List.takeWhile_append_dropWhile (p := isFiller) (l := input)
  rw [← hsplit, hskip, List.append_assoc,
    outlineFrom_fillers fun c hc => List.mem_takeWhile_imp hc]
  exact outlineFrom_piece (isFiller_of_dropWhile hskip) (by rwa [hnested, Bool.not_not])

/-- If one semicolon behind the text changes nothing, what is behind it is read
on its own, with no block open. -/
theorem outlineFrom_append {opened : List (List Char)} {input : List Char} {pieces : List Piece}
    (h : outlineFrom opened input = .ok pieces)
    (hclosed : outlineFrom (opened.map (· ++ [';'])) (input ++ [';']) = .ok pieces)
    (suffix : List Char) :
    outlineFrom (opened.map (· ++ ';' :: suffix)) (input ++ ';' :: suffix) =
      (outlineFrom [] suffix).map (pieces ++ ·) := by
  fun_induction outlineFrom opened input generalizing pieces with
  | case1 input hskip =>
      cases h
      have hfillers : ∀ c ∈ input, isFiller c = true := List.dropWhile_eq_nil_iff.mp hskip
      rw [List.map_nil, outlineFrom_fillers hfillers, outlineFrom_filler rfl]
      cases outlineFrom [] suffix <;> rfl
  | case2 => cases h
  | case3 => cases h
  | case4 => cases h
  | case5 opened input c rest hskip piece left hnext pieces' hrest ih =>
      cases h
      have hpiece (behind : List Char) {left' : List Char} {piece' : Piece}
          (hnext' : Piece.next (!opened.isEmpty) c (rest ++ behind) = .ok (piece', left')) :
          outlineFrom (opened.map (· ++ behind)) (input ++ behind) = _ :=
        outlineFrom_piece_append (by rw [List.isEmpty_map, Bool.not_not]) hskip hnext'
      rcases Piece.next_append_semicolon hnext with hagain | ⟨rfl, ⟨content, rfl⟩, hlast⟩
      · rw [hpiece _ (hagain []), Piece.openAfter_map (· ++ [';'])] at hclosed
        rw [hpiece _ (hagain suffix), Piece.openAfter_map (· ++ ';' :: suffix),
          ih hrest (ok_of_map_cons hclosed)]
        cases outlineFrom [] suffix <;> rfl
      · -- the piece ends with the text, so that no block is open
        obtain rfl : opened = [] := eq_nil_of_outlineFrom_nil hrest
        obtain ⟨piece', hnext', hne⟩ := hlast.resolve_left (by simp)
        rw [hpiece _ hnext'] at hclosed
        exact absurd (eq_of_map_cons hclosed) hne

end Source

end Unnest
