import Unnest.Proofs.Source.Found
import Unnest.Proofs.Source.Reading

/-!
# What parsing gives

Every content that the reader gives is stored as `Stored` says, openings and
closings match, and there are no declarations at top level. So a parsed sheet
is a forest that fits, numbered in document order, and is well-formed.
-/

namespace Unnest

open Source Text

namespace Source

/-! ## One piece -/

def Piece.Fits (nested : Bool) : Piece → Prop
  | opening content => content.Stored ∧ content.opensBlock false = true
  | leaf content =>
      content.Stored ∧ content.opensBlock false = false ∧
        (content.isDeclaration = true → nested = true)
  | closing => nested = true

theorem Head.head?_of_read {c : Char} {rest head left : List Char}
    (h : Head.read (c :: rest) = .ok (head, left)) (hopens : Head.opensComment c rest = false) :
    ∀ d ∈ head.head?, d = c := by
  intro d hd
  rcases Head.cases_of_readFrom_cons h with ⟨-, rfl, -⟩ | ⟨-, -, text, -, rfl⟩
  · cases hd
  · have hkeeps : ({} : Head.Scan).place.keeps c rest = true := by
      simp [Head.Place.keeps, hopens]
    rw [if_pos hkeeps] at hd
    exact (Option.some.inj hd).symm

private theorem head?_trim {text : List Char} (h : ∀ c ∈ text.head?, isBlank c = false) :
    ∀ c ∈ (trim text).head?, c ∈ text.head? := by
  intro c hc
  have hstart : trimStart text = text := trimStart_eq_self h
  rw [trim, hstart] at hc
  have hne : trimEnd text ≠ [] := by
    intro hnil
    rw [hnil] at hc
    cases hc
  rwa [trimEnd_head?_of_ne_nil hne] at hc

theorem head?_trim_of_read {c : Char} {text : List Char} (hfirst : ∀ d ∈ text.head?, d = c)
    (hc : isFiller c = false) (hat : c ≠ '@') :
    ∀ d ∈ (trim text).head?, d ≠ '@' ∧ d ≠ ';' := by
  simp only [isFiller, Bool.or_eq_false_iff, beq_eq_false_iff_ne] at hc
  intro d hd
  have hd := head?_trim (fun d hd => by rw [hfirst d hd, hc.1]) d hd
  rw [hfirst d hd]
  exact ⟨hat, hc.2⟩

theorem stored_of_read {c : Char} {text : List Char} {content : Content}
    (h : Declaration.read text = some content) (hfirst : ∀ d ∈ text.head?, d = c)
    (hc : isFiller c = false) (hat : c ≠ '@') :
    content.Stored ∧ content.opensBlock false = false := by
  obtain ⟨before, after, value, important, rfl, hcut, hne, hvalue⟩ := Declaration.cases_of_read h
  have hbefore : ∀ d ∈ before.head?, d = c := by
    intro d hd
    apply hfirst
    rw [Declaration.cutAtColonFrom_eq_append hcut]
    cases before with
    | nil => cases hd
    | cons e before => exact hd
  have htrim := head?_trim_of_read hbefore hc hat
  have hcolon := Declaration.cutAtColon_trim hcut
  have hafter := trimmed_trim after
  rcases hvalue with ⟨rfl, -, rfl⟩ | ⟨rfl, hmark, rfl⟩
  · simpa [Content.Stored, Content.opensBlock, hne, trimmed_trim, hcolon,
      Declaration.trimmed_unmarked hafter] using htrim
  · simpa [Content.Stored, Content.opensBlock, hne, trimmed_trim, hcolon, hafter, hmark] using htrim

theorem fits_of_readAtRule {nested : Bool} {input left : List Char} {piece : Piece}
    (h : Piece.readAtRule input = .ok (piece, left)) : piece.Fits nested := by
  obtain ⟨name, params, rest, rfl, hne, -, hpiece⟩ := Piece.cases_of_readAtRule h
  have hname : ∀ c ∈ input.takeWhile isNameChar, isNameChar c = true :=
    fun c hc => List.mem_takeWhile_imp hc
  rcases hpiece with ⟨rfl, -⟩ | ⟨rfl, -⟩
  · simpa [Piece.Fits, Content.Stored, Content.opensBlock, trimmed_trim, hne] using hname
  · simpa [Piece.Fits, Content.Stored, Content.opensBlock, trimmed_trim, hne,
      Content.isDeclaration] using hname

theorem fits_of_readComment {nested : Bool} {body left : List Char} {piece : Piece}
    (h : Piece.readComment body = .ok (piece, left)) : piece.Fits nested := by
  obtain ⟨text, hcut, rfl⟩ := Piece.cases_of_readComment h
  have hmark : ¬ ['*', '/'] <:+: trim text := by
    obtain ⟨before, after, hsplit, -, -⟩ := exists_blanks_trim text
    intro hmem
    apply not_mark_infix_of_cutComment hcut
    rw [hsplit]
    exact hmem.trans ⟨before, after, by simp⟩
  simp [Piece.Fits, Content.Stored, Content.opensBlock, Content.isDeclaration, trimmed_trim, hmark]

private theorem fits_of_readStatement {nested : Bool} {c : Char} {rest left : List Char}
    {piece : Piece} (h : Piece.readStatement nested (c :: rest) = .ok (piece, left))
    (hopens : Head.opensComment c rest = false) (hc : isFiller c = false) (hat : c ≠ '@') :
    piece.Fits nested := by
  obtain ⟨head, _, hread, hpiece⟩ := Piece.cases_of_readStatement h
  have hfirst := Head.head?_of_read hread hopens
  rcases hpiece with ⟨rfl, -⟩ | ⟨hnested, -, content, hdecl, rfl⟩
  · have htrim := head?_trim_of_read hfirst hc hat
    simpa [Piece.Fits, Content.Stored, Content.opensBlock, trimmed_trim] using htrim
  · obtain ⟨hstored, hleaf⟩ := stored_of_read hdecl hfirst hc hat
    exact ⟨hstored, hleaf, fun _ => hnested⟩

theorem fits_of_next {nested : Bool} {c : Char} {rest left : List Char} {piece : Piece}
    (hc : isFiller c = false) (h : Piece.next nested c rest = .ok (piece, left)) :
    piece.Fits nested := by
  rcases Piece.cases_of_next h with ⟨hnested, rfl, -⟩ | ⟨-, hread⟩ | ⟨body, -, -, hread⟩ |
    ⟨hat, hopens, hread⟩
  · exact hnested
  · exact fits_of_readAtRule hread
  · exact fits_of_readComment hread
  · exact fits_of_readStatement hread hopens hc hat

/-! ## Rows of pieces -/

def Piece.openCount (count : Nat) : Piece → Nat
  | opening _ => count + 1
  | leaf _ => count
  | closing => count - 1

/-- Whether the pieces close `count` open blocks and all that they open. -/
def Row (count : Nat) : List Piece → Prop
  | [] => count = 0
  | piece :: pieces => piece.Fits (decide (0 < count)) ∧ Row (piece.openCount count) pieces

theorem row_of_outlineFrom {opened : List (List Char)} {input : List Char} {pieces : List Piece}
    (h : outlineFrom opened input = .ok pieces) : Row opened.length pieces := by
  fun_induction outlineFrom opened input generalizing pieces with
  | case1 input hskip =>
      cases h
      rfl
  | case2 => cases h
  | case3 => cases h
  | case4 => cases h
  | case5 opened input c rest hskip piece left hnext pieces' hrest ih =>
      cases h
      have hfits := fits_of_next (isFiller_of_dropWhile hskip) hnext
      refine ⟨?_, ?_⟩
      · cases opened <;> exact hfits
      · have hrow := ih hrest
        cases piece <;> simpa [Piece.openAfter, Piece.openCount] using hrow

theorem exists_forest {pieces : List Piece} {count : Nat} (h : Row count pieces) :
    ∃ (forest : Forest) (rest : List Piece), pieces = forest.pieces ++ rest ∧
      forest.Fits (decide (0 < count)) ∧ rest.length ≤ pieces.length ∧
      (count = 0 ∧ rest = [] ∨ ∃ behind, rest = .closing :: behind ∧ 0 < count ∧
        Row (count - 1) behind) := by
  induction hlength : pieces.length using Nat.strong_induction_on generalizing pieces count with
  | _ length ih =>
      subst hlength
      cases pieces with
      | nil => exact ⟨.nil, [], rfl, trivial, Nat.le_refl _, .inl ⟨h, rfl⟩⟩
      | cons piece pieces =>
          obtain ⟨hpiece, hrow⟩ := h
          cases piece with
          | closing =>
              exact ⟨.nil, _, rfl, trivial, Nat.le_refl _,
                .inr ⟨pieces, rfl, of_decide_eq_true hpiece, hrow⟩⟩
          | leaf content =>
              obtain ⟨hstored, hleaf, hnested⟩ := hpiece
              obtain ⟨beside, rest, heq, hfits, hlength, hend⟩ :=
                ih pieces.length (by simp) hrow rfl
              refine ⟨.node 0 content .nil beside, rest, ?_,
                ⟨hstored, hnested, fun _ => rfl, trivial, hfits⟩, ?_, hend⟩
              · simp [Forest.pieces, hleaf, heq]
              · exact Nat.le_succ_of_le hlength
          | opening content =>
              obtain ⟨hstored, hblock⟩ := hpiece
              obtain ⟨below, inner, heq, hbelow, hinner, hclose⟩ :=
                ih pieces.length (by simp) hrow rfl
              obtain ⟨behind, rfl, -, hbehind⟩ := hclose.resolve_left fun hend => by
                simp [Piece.openCount] at hend
              obtain ⟨beside, rest, hrest, hfits, hlength, hend⟩ :=
                ih behind.length (Nat.lt_of_succ_le (Nat.le_succ_of_le hinner)) hbehind rfl
              have hbelow : below.Fits true := by simpa [Piece.openCount] using hbelow
              refine ⟨.node 0 content below beside, rest, ?_, ⟨hstored, ?_, ?_, hbelow, hfits⟩,
                ?_, hend⟩
              · simp [Forest.pieces, hblock, heq, hrest]
              · intro hdecl
                cases content <;> simp_all [Content.isDeclaration, Content.opensBlock]
              · intro hleaf
                rw [hblock] at hleaf
                cases hleaf
              · rw [List.length_cons] at hinner ⊢
                omega

end Source

/-! ## Parsed sheets -/

theorem Forest.Fits.number {nested : Bool} {forest : Forest} (h : forest.Fits nested)
    (first : NodeId) : (forest.number first).Fits nested := by
  induction forest generalizing nested first with
  | nil => trivial
  | node id content below beside ihBelow ihBeside =>
      obtain ⟨hstored, hnested, hleaf, hbelow, hbeside⟩ := h
      refine ⟨hstored, hnested, ?_, ihBelow hbelow _, ihBeside hbeside _⟩
      intro hopens
      rw [hleaf hopens]
      rfl

/-- A parsed sheet is a forest that fits, numbered from one on. -/
theorem exists_forest_of_parse {source : String} {s : Sheet} (h : parse source = .ok s) :
    ∃ forest : Forest, outline source.toList = .ok forest.pieces ∧ s = .ofPieces forest.pieces ∧
      s.Holds forest ∧ forest.Fits false := by
  rw [parse] at h
  split at h
  · cases h
  · next pieces houtline =>
      cases h
      obtain ⟨forest, rest, rfl, hfits, -, hend⟩ := exists_forest (row_of_outlineFrom houtline)
      obtain ⟨-, rfl⟩ := hend.resolve_right fun ⟨_, _, hlt, _⟩ => absurd hlt (by simp)
      have hfits : forest.Fits false := hfits
      have hnumbered := Sheet.holds_ofPieces (hfits.number 1).formed
      rw [Forest.number_number] at hnumbered
      exact ⟨forest.number 1, by simpa using houtline, by simp, by simpa using hnumbered,
        hfits.number 1⟩

theorem wellFormed_of_parse {source : String} {s : Sheet} (h : parse source = .ok s) :
    s.WellFormed := by
  obtain ⟨forest, -, rfl, -, hfits⟩ := exists_forest_of_parse h
  exact Sheet.wellFormed_ofPieces hfits.formed

end Unnest
