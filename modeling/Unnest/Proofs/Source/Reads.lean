import Unnest.Proofs.Source.Found

/-!
# How far a reader can come

Both readers take one thing after the other: that of a head one character, that
of a sheet one piece. `Head.Reads` and `Reads` are the states they come to, and
a reader that fails does so in one of these. What is left at a place that is
reached is an end of the text, so the place stands between two characters.
-/

namespace Unnest.Source

open Text

/-! ## Heads -/

namespace Head

inductive Reads (input : List Char) : List Char → Scan → List Char → Prop
  | start : Reads input [] {} input
  | step {text : List Char} {scan : Scan} {c : Char} {rest : List Char} :
      Reads input text scan (c :: rest) → scan.stops c = false →
        scan.place.faultAt? c = none →
          Reads input (text ++ if scan.place.keeps c rest then [c] else [])
            (scan.step c rest) rest

variable {input text left : List Char} {scan : Scan}

theorem Reads.suffix (h : Reads input text scan left) : left <:+ input := by
  induction h with
  | start => exact List.suffix_refl input
  | step _ _ _ ih => exact (List.suffix_cons _ _).trans ih

def Scan.Ends (scan : Scan) : List Char → Prop
  | [] => scan.place.faultAtEnd? = none
  | c :: _ => scan.stops c = true

def Scan.Fails (scan : Scan) (fault : Fault) : List Char → Prop
  | [] => scan.place.faultAtEnd? = some fault
  | c :: _ => scan.stops c = false ∧ scan.place.faultAt? c = some fault

/-- Whatever the reader gives, it comes to a state in which it has to. -/
theorem Reads.cases_readFrom (h : Reads input text scan left) :
    (∃ kept scan' left', readFrom scan left = .ok (kept, left') ∧
        Reads input (text ++ kept) scan' left' ∧ scan'.Ends left') ∨
      ∃ fault text' scan' left', readFrom scan left = .error fault ∧
        Reads input text' scan' left' ∧ scan'.Fails fault left' := by
  -- along what is left, from any state that the reader has come to
  induction left generalizing text scan with
  | nil =>
      rw [readFrom]
      split
      · next fault hfault => exact .inr ⟨fault, text, scan, [], rfl, h, hfault⟩
      · next hfault =>
          rw [← List.append_nil text] at h
          exact .inl ⟨[], scan, [], rfl, h, hfault⟩
  | cons c rest ih =>
      rw [readFrom]
      split
      · next hstops =>
          rw [← List.append_nil text] at h
          exact .inl ⟨[], scan, c :: rest, rfl, h, hstops⟩
      · next hstops =>
          have hstops : scan.stops c = false := by simpa using hstops
          split
          · next fault hfault =>
              exact .inr ⟨fault, text, scan, c :: rest, rfl, h, hstops, hfault⟩
          · next hfault =>
              rcases ih (h.step hstops hfault) with ⟨kept, scan', left', hread, hreads, hends⟩ |
                ⟨fault, text', scan', left', hread, hreads, hfails⟩
              · rw [hread]
                refine .inl ⟨_, scan', left', rfl, ?_, hends⟩
                cases hkeeps : scan.place.keeps c rest <;> simpa [hkeeps] using hreads
              · rw [hread]
                exact .inr ⟨fault, text', scan', left', rfl, hreads, hfails⟩

theorem exists_reads_of_read (h : read input = .ok (text, left)) :
    ∃ scan, Reads input text scan left ∧ scan.Ends left := by
  have hstart : Reads input [] {} input := .start
  rcases hstart.cases_readFrom with
    ⟨kept, scan, left', hread, hreads, hends⟩ | ⟨fault, _, _, _, hread, -⟩
  · obtain ⟨rfl, rfl⟩ := Prod.mk.inj (Except.ok.inj (hread.symm.trans h))
    exact ⟨scan, hreads, hends⟩
  · cases hread.symm.trans h

theorem exists_reads_of_error {fault : Fault} (h : read input = .error fault) :
    ∃ text scan left, Reads input text scan left ∧ scan.Fails fault left := by
  have hstart : Reads input [] {} input := .start
  rcases hstart.cases_readFrom with
    ⟨kept, _, left', hread, -⟩ | ⟨fault', text, scan, left, hread, hreads, hfails⟩
  · cases hread.symm.trans h
  · obtain rfl := Except.error.inj (hread.symm.trans h)
    exact ⟨text, scan, left, hreads, hfails⟩

theorem Reads.exists_of_read {kept rest : List Char} (h : Reads input kept scan rest)
    (hread : read input = .ok (text, left)) :
    ∃ after, text = kept ++ after ∧ readFrom scan rest = .ok (after, left) := by
  induction h with
  | start => exact ⟨text, rfl, hread⟩
  | @step kept scan c rest _ hstops _ ih =>
      obtain ⟨after, rfl, hafter⟩ := ih
      rw [readFrom, if_neg (by simp [hstops])] at hafter
      split at hafter
      · cases hafter
      · split at hafter
        · cases hafter
        · next after' left' hrest =>
            cases hafter
            refine ⟨after', ?_, hrest⟩
            split <;> simp

theorem Reads.exists_of_append {before after : List Char} {c : Char}
    (h : Reads input text scan left) (htext : text = before ++ c :: after) :
    ∃ scan' rest, Reads input before scan' (c :: rest) ∧ scan'.place.keeps c rest = true := by
  induction h generalizing after with
  | start => simp at htext
  | @step kept scan' d rest hreads _ _ ih =>
      cases hkeeps : scan'.place.keeps d rest with
      | false =>
          rw [hkeeps, if_neg Bool.false_ne_true, List.append_nil] at htext
          exact ih htext
      | true =>
          rw [hkeeps, if_pos rfl] at htext
          -- the last character was taken now, any other one before
          rcases List.eq_nil_or_concat after with rfl | ⟨after', e, rfl⟩
          · obtain ⟨rfl, hlast⟩ := List.append_inj' htext rfl
            cases hlast
            exact ⟨scan', rest, hreads, hkeeps⟩
          · rw [List.concat_eq_append, ← List.cons_append, ← List.append_assoc] at htext
            exact ih (List.append_inj_left' htext rfl)

end Head

/-! ## Pieces -/

namespace Piece

variable {piece : Piece} {left : List Char}

theorem suffix_of_readComment {body : List Char} (h : readComment body = .ok (piece, left)) :
    left <:+ body := by
  obtain ⟨text, hcut, -⟩ := cases_of_readComment h
  rw [cutComment_eq_append hcut]
  exact ⟨text ++ ['*', '/'], by simp⟩

/-- What stands behind a piece, its brace included if it opens a block. -/
def behind (piece : Piece) (left : List Char) : List Char :=
  match piece with
  | opening _ => '\x7b' :: left
  | leaf _ | closing => left

theorem suffix_behind (piece : Piece) (left : List Char) : left <:+ piece.behind left := by
  cases piece with
  | opening content => exact List.suffix_cons _ left
  | leaf content => exact List.suffix_refl left
  | closing => exact List.suffix_refl left

theorem behind_suffix_of_readAtRule {input : List Char}
    (h : readAtRule input = .ok (piece, left)) : piece.behind left <:+ input := by
  obtain ⟨name, params, rest, -, -, hread, hpiece⟩ := cases_of_readAtRule h
  have hrest : rest <:+ input :=
    (Head.suffix_readFrom hread).trans (List.dropWhile_suffix isNameChar)
  rcases hpiece with ⟨rfl, rfl⟩ | ⟨rfl, rfl⟩
  · exact hrest
  · exact hrest

theorem behind_suffix_of_readStatement {nested : Bool} {input : List Char}
    (h : readStatement nested input = .ok (piece, left)) : piece.behind left <:+ input := by
  obtain ⟨head, rest, hread, hpiece⟩ := cases_of_readStatement h
  have hrest : rest <:+ input := Head.suffix_readFrom hread
  rcases hpiece with ⟨rfl, rfl⟩ | ⟨-, rfl, content, -, rfl⟩
  · exact hrest
  · exact hrest

theorem behind_suffix_of_next {nested : Bool} {c : Char} {rest : List Char}
    (h : next nested c rest = .ok (piece, left)) : piece.behind left <:+ c :: rest := by
  rcases cases_of_next h with ⟨-, rfl, rfl⟩ | ⟨-, hread⟩ | ⟨body, -, rfl, hread⟩ | ⟨-, -, hread⟩
  · exact List.suffix_cons c left
  · exact (behind_suffix_of_readAtRule hread).trans (List.suffix_cons c rest)
  · have hleft := suffix_of_readComment hread
    obtain ⟨text, -, rfl⟩ := cases_of_readComment hread
    exact hleft.trans ((List.suffix_cons '*' body).trans (List.suffix_cons c _))
  · exact behind_suffix_of_readStatement hread

inductive Stands (c : Char) (rest : List Char) : List Char → Prop
  | front : Stands c rest (c :: rest)
  | name : c = '@' → Stands c rest rest
  | params {text : List Char} {scan : Head.Scan} {left : List Char} :
      c = '@' → Head.Reads (rest.dropWhile isNameChar) text scan left → Stands c rest left
  | body {body : List Char} : rest = '*' :: body → Stands c rest body
  | mark {body text after : List Char} :
      rest = '*' :: body → cutComment body = some (text, after) →
        Stands c rest ('*' :: '/' :: after)
  | statement {text : List Char} {scan : Head.Scan} {left : List Char} :
      Head.Reads (c :: rest) text scan left → Stands c rest left

theorem Stands.suffix {c : Char} {rest place : List Char} (h : Stands c rest place) :
    place <:+ c :: rest := by
  cases h with
  | front => exact List.suffix_refl _
  | name => exact List.suffix_cons c rest
  | params _ hreads =>
      have hname : rest.dropWhile isNameChar <:+ rest := List.dropWhile_suffix isNameChar
      exact hreads.suffix.trans (hname.trans (List.suffix_cons c rest))
  | body hrest =>
      rw [hrest]
      exact (List.suffix_cons '*' place).trans (List.suffix_cons c _)
  | mark hrest hcut =>
      rw [hrest, cutComment_eq_append hcut]
      exact (List.suffix_append _ _).trans ((List.suffix_cons '*' _).trans (List.suffix_cons c _))
  | statement hreads => exact hreads.suffix

end Piece

/-! ## Sheets -/

/-- The pieces are read from the source, the blocks `opened` are still open, and
the reader stands in front of what is left. -/
inductive Reads (source : List Char) : List Piece → List (List Char) → List Char → Prop
  | start : Reads source [] [] source
  | step {pieces : List Piece} {opened : List (List Char)} {input : List Char} {c : Char}
      {rest : List Char} {piece : Piece} {left : List Char} :
      Reads source pieces opened input → input.dropWhile isFiller = c :: rest →
        Piece.next (!opened.isEmpty) c rest = .ok (piece, left) →
          Reads source (pieces ++ [piece]) (piece.openAfter opened left) left

/-- All places of the source where the reader stands on its way. -/
inductive Stands (source : List Char) : List Char → Prop
  | between {pieces : List Piece} {opened : List (List Char)} {fillers left : List Char} :
      Reads source pieces opened (fillers ++ left) → (∀ c ∈ fillers, isFiller c = true) →
        Stands source left
  | within {pieces : List Piece} {opened : List (List Char)} {input : List Char} {c : Char}
      {rest place : List Char} :
      Reads source pieces opened input → input.dropWhile isFiller = c :: rest →
        Piece.Stands c rest place → Stands source place

variable {source : List Char} {pieces : List Piece} {opened : List (List Char)}
  {left : List Char}

theorem suffix_of_dropWhile {input : List Char} {c : Char} {rest : List Char}
    (h : input.dropWhile isFiller = c :: rest) : c :: rest <:+ input :=
  h ▸ List.dropWhile_suffix isFiller

structure Inside (source : List Char) (opened : List (List Char)) (left : List Char) : Prop where
  left : left <:+ source
  opened : ∀ body ∈ opened, '\x7b' :: body <:+ source

theorem Inside.next (h : Inside source opened left) {c : Char} {rest left' : List Char}
    {piece : Piece} (hskip : left.dropWhile isFiller = c :: rest)
    (hnext : Piece.next (!opened.isEmpty) c rest = .ok (piece, left')) :
    Inside source (piece.openAfter opened left') left' := by
  have hbehind : piece.behind left' <:+ source :=
    (Piece.behind_suffix_of_next hnext).trans ((suffix_of_dropWhile hskip).trans h.left)
  refine ⟨(piece.suffix_behind left').trans hbehind, ?_⟩
  cases piece with
  | opening content => exact List.forall_mem_cons.mpr ⟨hbehind, h.opened⟩
  | leaf content => exact h.opened
  | closing => exact fun body hbody => h.opened body (List.mem_of_mem_tail hbody)

theorem Reads.inside (h : Reads source pieces opened left) : Inside source opened left := by
  induction h with
  | start => exact ⟨List.suffix_refl source, by simp⟩
  | step _ hskip hnext ih => exact ih.next hskip hnext

theorem Stands.suffix {place : List Char} (h : Stands source place) : place <:+ source := by
  cases h with
  | between hreads => exact (List.suffix_append _ _).trans hreads.inside.left
  | within hreads hskip hstands =>
      exact hstands.suffix.trans ((suffix_of_dropWhile hskip).trans hreads.inside.left)

def FailsAt (fault : Fault) (opened : List (List Char)) (left : List Char) : Prop :=
  match left.dropWhile isFiller with
  | [] => ∃ body ∈ opened.head?, fault = ⟨.unclosedBlock, '\x7b' :: body⟩
  | c :: rest => Piece.next (!opened.isEmpty) c rest = .error fault

theorem Reads.cases_outlineFrom (h : Reads source pieces opened left) :
    (∃ pieces' left', outlineFrom opened left = .ok pieces' ∧
        Reads source (pieces ++ pieces') [] left' ∧ left'.dropWhile isFiller = []) ∨
      ∃ fault pieces' opened' left', outlineFrom opened left = .error fault ∧
        Reads source pieces' opened' left' ∧ FailsAt fault opened' left' := by
  fun_induction outlineFrom opened left generalizing pieces with
  | case1 left hskip =>
      rw [← List.append_nil pieces] at h
      exact .inl ⟨[], left, rfl, h, hskip⟩
  | case2 left hskip body outer =>
      refine .inr ⟨_, pieces, body :: outer, left, rfl, h, ?_⟩
      rw [FailsAt, hskip]
      exact ⟨body, rfl, rfl⟩
  | case3 opened left c rest hskip fault hnext =>
      refine .inr ⟨fault, pieces, opened, left, rfl, h, ?_⟩
      rw [FailsAt, hskip]
      exact hnext
  | case4 opened left c rest hskip piece left' hnext fault hrest ih =>
      rcases ih (h.step hskip hnext) with ⟨_, _, hok, -⟩ |
        ⟨fault', pieces', opened', left'', herror, hreads, hfails⟩
      · cases hrest.symm.trans hok
      · obtain rfl := Except.error.inj (hrest.symm.trans herror)
        exact .inr ⟨fault, pieces', opened', left'', rfl, hreads, hfails⟩
  | case5 opened left c rest hskip piece left' hnext pieces' hrest ih =>
      rcases ih (h.step hskip hnext) with ⟨pieces'', left'', hok, hreads, hend⟩ |
        ⟨_, _, _, _, herror, -⟩
      · obtain rfl := Except.ok.inj (hrest.symm.trans hok)
        rw [List.append_assoc] at hreads
        exact .inl ⟨piece :: pieces', left'', rfl, hreads, hend⟩
      · cases hrest.symm.trans herror

theorem exists_reads_of_outline (h : outline source = .ok pieces) :
    ∃ left, Reads source pieces [] left ∧ left.dropWhile isFiller = [] := by
  have hstart : Reads source [] [] source := .start
  rcases hstart.cases_outlineFrom with
    ⟨pieces', left, hok, hreads, hend⟩ | ⟨_, _, _, _, herror, -⟩
  · obtain rfl := Except.ok.inj (hok.symm.trans h)
    exact ⟨left, hreads, hend⟩
  · cases herror.symm.trans h

theorem exists_reads_of_outline_error {fault : Fault} (h : outline source = .error fault) :
    ∃ pieces opened left, Reads source pieces opened left ∧ FailsAt fault opened left := by
  have hstart : Reads source [] [] source := .start
  rcases hstart.cases_outlineFrom with
    ⟨_, _, hok, -⟩ | ⟨fault', pieces, opened, left, herror, hreads, hfails⟩
  · cases hok.symm.trans h
  · obtain rfl := Except.error.inj (herror.symm.trans h)
    exact ⟨pieces, opened, left, hreads, hfails⟩

end Unnest.Source
