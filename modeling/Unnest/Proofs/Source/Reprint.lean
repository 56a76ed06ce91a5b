import Unnest.Proofs.Source.Marks
import Unnest.Proofs.Source.Parsed
import Unnest.Proofs.Source.RoundTrip

/-!
# When a printed sheet is read back

Texts are trimmed and comments dropped when they are stored, so a head that is
printed may not be the head that was read. A parsed sheet is read back exactly
if each printed head is read as it stands.

That this is needed is seen by counting. If the sheet comes back, then the
reader finds all slashes of the printed text, so that it drops no comment from a
head. Braces and semicolons then show that it ends each head where the printer
did.
-/

namespace Unnest

open Source Text

namespace Source

/-! ## One line -/

/-- Two ends of one text that both begin with a terminator begin at one place
if the texts in front of them have the same terminators. -/
theorem eq_of_append_eq_append {text text' rest left : List Char} {c : Char}
    (hc : Head.isTerminator c = true) (h : text ++ c :: rest = text' ++ left)
    (hleft : ∀ d ∈ left.head?, Head.isTerminator d = true)
    (hcount : ∀ d, Head.isTerminator d = true → text.count d = text'.count d) : text = text' := by
  rcases List.append_eq_append_iff.mp h with ⟨between, rfl, hbetween⟩ | ⟨between, rfl, hbetween⟩
  · cases between with
    | nil => exact (List.append_nil _).symm
    | cons d between =>
        obtain ⟨rfl, -⟩ := List.cons.inj hbetween
        have hcount := hcount c hc
        rw [List.count_append, List.count_cons_self] at hcount
        omega
  · cases between with
    | nil => exact List.append_nil _
    | cons d between =>
        have hd : Head.isTerminator d = true := hleft d (by rw [hbetween]; rfl)
        have hcount := hcount d hd
        rw [List.count_append, List.count_cons_self] at hcount
        omega

/-- A head that is read with the same marks, and with no slash lost, was read as
it stands. -/
theorem readsBack_of_read {content : Content} {head rest left : List Char}
    (h : Head.read (content.head ++ content.terminator :: rest) = .ok (head, left))
    (hcount : ∀ c ∈ countedMarks, content.head.count c = head.count c)
    (hslashes : rest.count '/' ≤ left.count '/') : content.ReadsBack := by
  have hslash := hcount '/' (by decide)
  have heq : content.head ++ content.terminator :: rest = head ++ left := by
    rcases Head.eq_append_or_count_lt h with ⟨-, heq⟩ | hlt
    · exact heq
    · rw [List.count_append, List.count_cons_of_ne (content.terminator_ne rfl)] at hlt
      omega
  have hhead : content.head = head := by
    apply eq_of_append_eq_append content.isTerminator_terminator heq
    · exact fun d hd => Head.isTerminator_of_readFrom h hd
    · exact fun d hd => hcount d (mem_countedMarks_of_isTerminator hd)
  subst hhead
  obtain rfl := List.append_cancel_left heq
  obtain ⟨state, hrun, hend⟩ := Head.run?_of_readFrom rfl h
  rw [hend (List.cons_ne_nil _ _)] at hrun
  exact Content.readsBack_iff.mpr hrun

/-- What is printed for a node begins with a character that is not skipped. Left
out are comments and the empty selector. -/
theorem exists_cons_of_stored {content : Content} (hstored : content.Stored)
    (hcomment : ∀ text, content ≠ .comment text) (hempty : content ≠ .rule "")
    (rest : List Char) :
    ∃ c behind, content.lead ++ (content.head ++ rest) = c :: behind ∧ isFiller c = false := by
  -- The texts in front are trimmed and begin with no semicolon.
  have hfirst {text : List Char} (hne : text ≠ []) (htrimmed : Trimmed text)
      (hsemicolon : ∀ c ∈ text.head?, c ≠ '@' ∧ c ≠ ';') (behind : List Char) :
      ∃ c behind', text ++ behind = c :: behind' ∧ isFiller c = false := by
    obtain ⟨c, text, rfl⟩ := List.exists_cons_of_ne_nil hne
    refine ⟨c, text ++ behind, rfl, ?_⟩
    simp [isFiller, htrimmed.1 c rfl, (hsemicolon c rfl).2]
  cases content with
  | root => cases hstored
  | rule selector =>
      have hne : selector.toList ≠ [] := by
        intro hnil
        rw [String.toList_eq_nil_iff.mp hnil] at hempty
        exact hempty rfl
      simpa [Content.lead, Content.head] using hfirst hne hstored.1 hstored.2 (' ' :: rest)
  | atRule name params hasBlock => exact ⟨_, _, rfl, rfl⟩
  | declaration property value important =>
      obtain ⟨hne, htrimmed, hsemicolon, -⟩ := hstored
      rw [Content.head, Declaration.headText, List.append_assoc]
      exact hfirst hne htrimmed hsemicolon _
  | comment text => exact absurd rfl (hcomment text)

/-- If a node that is printed comes back, and as many slashes behind it as there
are, then its head was read as it stands. -/
theorem readsBack_of_outlineFrom {content : Content} {piece : Piece} {rest : List Char}
    {pieces : List Piece} {opened : List (List Char)} (hstored : content.Stored)
    (hcomment : ∀ text, content ≠ .comment text)
    (hpiece : piece = .opening content ∨ piece = .leaf content)
    (h : outlineFrom opened (content.lead ++ (content.head ++ content.terminator :: rest)) =
      .ok (piece :: pieces))
    (hslashes : rest.count '/' ≤ slashes pieces) : content.ReadsBack := by
  by_cases hempty : content = .rule ""
  · subst hempty
    rfl
  · obtain ⟨c, behind, hline, hc⟩ :=
      exists_cons_of_stored hstored hcomment hempty (content.terminator :: rest)
    rw [hline] at h
    obtain ⟨left, hnext, hrest⟩ := exists_next_of_outlineFrom hc h
    rcases cases_marks_of_next hnext with ⟨rfl, -⟩ | ⟨text, rfl, -⟩ |
      ⟨content', hpiece', -, input, head, rest', htext, hread, hcount, hleft⟩
    · simp at hpiece
    · simp only [reduceCtorEq, Piece.leaf.injEq, false_or] at hpiece
      exact absurd hpiece.symm (hcomment _)
    · have hcontent : content' = content := by
        rcases hpiece with rfl | rfl <;> rcases hpiece' with heq | heq <;> cases heq <;> rfl
      subst hcontent
      rw [← hline] at htext
      rw [← List.append_cancel_left htext] at hread
      apply readsBack_of_read hread hcount
      rw [hleft]
      exact Nat.le_trans hslashes (slashes_of_outlineFrom hrest)

theorem readsBack_of_statement {content : Content} {rest : List Char} {pieces : List Piece}
    {opened : List (List Char)} (hstored : content.Stored)
    (hblock : content.opensBlock false = false)
    (h : outlineFrom opened (content.statement.toList ++ rest) = .ok (.leaf content :: pieces))
    (hslashes : rest.count '/' ≤ slashes pieces) : content.ReadsBack := by
  by_cases hcomment : ∀ text, content ≠ .comment text
  · have hroot : content ≠ .root := by
      rintro rfl
      exact hstored
    rw [Content.toList_statement hblock hroot hcomment] at h
    exact readsBack_of_outlineFrom hstored hcomment (.inr rfl) h hslashes
  · push Not at hcomment
    obtain ⟨text, rfl⟩ := hcomment
    rfl

theorem readsBack_of_heading {content : Content} {rest : List Char} {pieces : List Piece}
    {opened : List (List Char)} (hstored : content.Stored)
    (hblock : content.opensBlock false = true)
    (h : outlineFrom opened (content.heading.toList ++ ' ' :: '\x7b' :: rest) =
      .ok (.opening content :: pieces))
    (hslashes : rest.count '/' ≤ slashes pieces) : content.ReadsBack := by
  have hcomment : ∀ text, content ≠ .comment text := by
    rintro text rfl
    cases hblock
  rw [Content.toList_heading hblock] at h
  exact readsBack_of_outlineFrom hstored hcomment (.inl rfl) h hslashes

end Source

/-! ## The whole text -/

namespace Forest

theorem count_indentation (depth : Nat) : (indentation depth).count '/' = 0 := by
  rw [List.count_eq_zero]
  intro hmem
  cases List.eq_of_mem_replicate hmem

theorem count_blockText_of {below : Forest} {depth : Nat}
    (h : (below.text (depth + 1)).count '/' = slashes below.pieces) :
    (blockText depth below).count '/' = slashes below.pieces := by
  rw [blockText]
  split
  · next hempty =>
      rw [eq_nil_of_roots_isEmpty hempty]
      rfl
  · rw [List.count_cons_of_ne (by decide), List.count_append, count_indentation, h, Nat.add_zero]

theorem count_text {forest : Forest} (h : forest.Formed) (depth : Nat) :
    (forest.text depth).count '/' = slashes forest.pieces := by
  induction forest generalizing depth with
  | nil => rfl
  | node id content below beside ihBelow ihBeside =>
      obtain ⟨hroot, -, hbelow, hbeside⟩ := h
      have hrest := ihBeside hbeside depth
      cases hblock : content.opensBlock false with
      | false =>
          rw [text_statement depth hblock, List.count_append, count_indentation,
            Content.count_statement hblock hroot, List.count_cons_of_ne (by decide), hrest, pieces,
            if_neg (by simp [hblock]), Nat.zero_add, slashes_cons, Piece.slashes]
      | true =>
          have hinner := count_blockText_of (ihBelow hbelow (depth + 1))
          rw [text_block depth hblock, List.count_append, count_indentation,
            Content.count_heading hblock, List.count_append, hinner,
            List.count_cons_of_ne (by decide), List.count_cons_of_ne (by decide), hrest, pieces,
            if_pos hblock]
          simp [Piece.slashes]

/-! ## What comes back was read as it stands -/

private theorem all_readsBack_of_blockText {below : Forest} {opened : List (List Char)}
    {depth : Nat}
    (hbelow : ∀ {rest more},
      outlineFrom opened (below.text (depth + 1) ++ rest) = .ok (below.pieces ++ more) →
        rest.count '/' ≤ slashes more → below.All fun _ content => content.ReadsBack)
    {rest : List Char} {more : List Piece}
    (h : outlineFrom opened (blockText depth below ++ rest) = .ok (below.pieces ++ more))
    (hslashes : rest.count '/' ≤ slashes more) :
    below.All fun _ content => content.ReadsBack := by
  rw [blockText] at h
  split at h
  · next hempty =>
      rw [eq_nil_of_roots_isEmpty hempty]
      trivial
  · rw [List.cons_append, outlineFrom_filler rfl, List.append_assoc] at h
    apply hbelow h
    rwa [List.count_append, count_indentation, Nat.zero_add]

/-- If a printed forest comes back, and the slashes behind it do, then all its
heads were read as they stand. -/
theorem all_readsBack_of_outlineFrom {forest : Forest} {opened : List (List Char)} {depth : Nat}
    {rest : List Char} {more : List Piece} (hfits : forest.Fits (!opened.isEmpty))
    (h : outlineFrom opened (forest.text depth ++ rest) = .ok (forest.pieces ++ more))
    (hslashes : rest.count '/' ≤ slashes more) :
    forest.All fun _ content => content.ReadsBack := by
  induction forest generalizing opened depth rest more with
  | nil => trivial
  | node id content below beside ihBelow ihBeside =>
      obtain ⟨-, -, hformed, hformed'⟩ := hfits.formed
      obtain ⟨hstored, hnested, hleaf, hbelow, hbeside⟩ := hfits
      -- Where the node ends in the text is known only once its head is, so this
      -- bound on what comes behind is needed first.
      have hbehind : (beside.text depth ++ rest).count '/' ≤ slashes (beside.pieces ++ more) := by
        rw [List.count_append, slashes_append, count_text hformed']
        omega
      cases hblock : content.opensBlock false with
      | false =>
          have hopened : content.isDeclaration = true → opened ≠ [] := by
            intro hdecl hnil
            simpa [hnil] using hnested hdecl
          rw [text_statement depth hblock, List.append_assoc, List.append_assoc,
            outlineFrom_fillers isFiller_of_mem_indentation, List.cons_append, pieces,
            if_neg (by simp [hblock]), List.cons_append] at h
          have hread := readsBack_of_statement hstored hblock h
            (by rwa [List.count_cons_of_ne (by decide)])
          rw [outlineFrom_statement hstored hread hblock hopened, outlineFrom_filler rfl] at h
          have hnil := hleaf hblock
          subst hnil
          exact ⟨hread, trivial, ihBeside hbeside (ok_of_map_cons h) hslashes⟩
      | true =>
          rw [text_block depth hblock, List.append_assoc, List.append_assoc, List.cons_append,
            List.cons_append, List.append_assoc, List.cons_append, List.cons_append,
            outlineFrom_fillers isFiller_of_mem_indentation, pieces, if_pos hblock,
            List.cons_append, List.append_assoc, List.cons_append] at h
          have hclosing : ('\x7d' :: '\n' :: (beside.text depth ++ rest)).count '/' ≤
              slashes (.closing :: (beside.pieces ++ more)) := by
            simpa [Piece.slashes] using hbehind
          have hbelow (body : List Char) : below.Fits (!(body :: opened).isEmpty) := hbelow
          have hread := readsBack_of_heading hstored hblock h (by
            rw [List.count_append, slashes_append, count_blockText_of (count_text hformed _)]
            exact Nat.add_le_add_left hclosing _)
          rw [outlineFrom_heading hstored hread hblock] at h
          have h := ok_of_map_cons h
          have hreadBelow := all_readsBack_of_blockText (ihBelow (hbelow _)) h hclosing
          rw [outlineFrom_blockText (outlineFrom_text (hbelow _) hreadBelow (depth + 1))] at h
          have h := ok_of_map_append h
          rw [outlineFrom_closing] at h
          exact ⟨hread, hreadBelow, ihBeside hbeside (ok_of_map_cons h) hslashes⟩

theorem all_readsBack_of_outline {forest : Forest} (hfits : forest.Fits false)
    (h : outline (forest.text 0) = .ok forest.pieces) :
    forest.All fun _ content => content.ReadsBack := by
  have hfits : forest.Fits (!([] : List (List Char)).isEmpty) := hfits
  have hwhole : outlineFrom [] (forest.text 0 ++ []) = .ok (forest.pieces ++ []) := by
    rwa [List.append_nil, List.append_nil]
  have hnothing : ([] : List Char).count '/' ≤ slashes [] := Nat.le_refl 0
  exact all_readsBack_of_outlineFrom hfits hwhole hnothing

end Forest

/-- A linked sheet comes back from its text exactly if a reader could have
found its nodes and reads each head as it stands. -/
theorem parse_print_iff {s : Sheet} (hs : s.Linked) {forest : Forest} (h : s.Holds forest) :
    (∃ t, parse s.print = .ok t ∧ s.Renumbered t) ↔
      forest.Fits false ∧ forest.All fun _ content => content.ReadsBack := by
  constructor
  · rintro ⟨t, hparse, ht⟩
    obtain ⟨forest', houtline, -, hforest', hfits⟩ := exists_forest_of_parse hparse
    obtain rfl := hforest'.unique (ht.holds hs h)
    rw [Forest.fits_mapIds] at hfits
    rw [hs.print_of_holds h hfits.formed, Forest.pieces_mapIds] at houtline
    exact ⟨hfits, forest.all_readsBack_of_outline hfits houtline⟩
  · rintro ⟨hfits, hreads⟩
    exact ⟨_, parse_print_of_holds hs h hfits hreads,
      Sheet.renumbered_ofPieces hs h hfits.formed⟩

/-! ## Parsed sheets -/

theorem ids_of_parse {source : String} {s : Sheet} (h : parse source = .ok s) {forest : Forest}
    (hforest : s.Holds forest) : s.ids = rootId :: forest.ids := by
  obtain ⟨forest', -, rfl, hforest', hfits⟩ := exists_forest_of_parse h
  obtain rfl := hforest.unique hforest'
  rw [Sheet.ids_ofPieces hfits.formed, (Sheet.holds_ofPieces hfits.formed).unique hforest]

theorem storedAt_of_parse {source : String} {s : Sheet} (h : parse source = .ok s) {id : NodeId}
    {content : Content} (hid : id ≠ rootId) (hcontent : s.content? id = some content) :
    s.StoredAt id content := by
  obtain ⟨forest, -, -, hforest, hfits⟩ := exists_forest_of_parse h
  have hs := (wellFormed_of_parse h).linked
  have hall := Sheet.storedAt_of_fits hs hforest.mirrors (fun _ => rfl) hfits
  have hmem := Sheet.mem_ids.mpr (Sheet.lt_size_of_content? hcontent)
  rw [ids_of_parse h hforest] at hmem
  exact hforest.mirrors.all_iff.mp hall id ((List.mem_cons.mp hmem).resolve_left hid) content
    hcontent

theorem forall_content_iff_of_parse {source : String} {s : Sheet} (h : parse source = .ok s)
    {forest : Forest} (hforest : s.Holds forest) {P : Content → Prop} (hroot : P .root) :
    (∀ id content, s.content? id = some content → P content) ↔
      forest.All fun _ content => P content := by
  rw [hforest.mirrors.all_iff]
  constructor
  · exact fun hall id _ content => hall id content
  · intro hall id content hcontent
    have hid := Sheet.mem_ids.mpr (Sheet.lt_size_of_content? hcontent)
    rw [ids_of_parse h hforest] at hid
    rcases List.mem_cons.mp hid with rfl | hid
    · rw [Sheet.content?, hforest.root] at hcontent
      cases hcontent
      exact hroot
    · exact hall id hid content hcontent

theorem readsBack_of_parse_print {source : String} {s : Sheet} (h : parse source = .ok s)
    (hagain : parse s.print = .ok s) :
    ∀ id content, s.content? id = some content → content.ReadsBack := by
  obtain ⟨forest, -, -, hforest, hfits⟩ := exists_forest_of_parse h
  obtain ⟨forest', houtline, -, hforest', -⟩ := exists_forest_of_parse hagain
  obtain rfl := hforest.unique hforest'
  rw [(wellFormed_of_parse h).linked.print_of_holds hforest hfits.formed] at houtline
  rw [forall_content_iff_of_parse h hforest (P := Content.ReadsBack) rfl]
  exact forest.all_readsBack_of_outline hfits houtline

theorem parse_print_of_readsBack {source : String} {s : Sheet} (h : parse source = .ok s)
    (hreads : ∀ id content, s.content? id = some content → content.ReadsBack) :
    parse s.print = .ok s := by
  obtain ⟨forest, -, heq, hforest, hfits⟩ := exists_forest_of_parse h
  rw [forall_content_iff_of_parse h hforest (P := Content.ReadsBack) rfl] at hreads
  rw [parse_print_of_holds (wellFormed_of_parse h).linked hforest hfits hreads, ← heq]

/-- A parsed sheet that is printed comes back exactly if the head of each node,
as it is printed, is read as it stands. -/
theorem parse_print_of_parse_iff {source : String} {s : Sheet} (h : parse source = .ok s) :
    parse s.print = .ok s ↔
      ∀ id content, s.content? id = some content → content.ReadsBack :=
  ⟨readsBack_of_parse_print h, parse_print_of_readsBack h⟩

/-- `@m y { a { b: c !important } }`. -/
def markedSheet : Sheet where
  nodes := #[⟨.root, none, [1]⟩, ⟨.atRule "m" "y" true, some 0, [2]⟩, ⟨.rule "a", some 1, [3]⟩,
    ⟨.declaration "b" "c" true, some 2, []⟩]
  nonempty := by decide

theorem parse_print_markedSheet :
    parse "@m y\x7ba/* x */\x7bb:c !important/**/\x7d\x7d" = .ok markedSheet ∧
      (∀ id content, markedSheet.content? id = some content → content.ReadsBack) ∧
      parse markedSheet.print = .ok markedSheet := by
  have hparse : parse "@m y\x7ba/* x */\x7bb:c !important/**/\x7d\x7d" = .ok markedSheet := by
    decide +kernel
  have hreads : ∀ id content, markedSheet.content? id = some content → content.ReadsBack := by
    intro id content hcontent
    match id with
    | 0 | 1 | 2 | 3 =>
        cases hcontent
        decide
    | _ + 4 => cases hcontent
  exact ⟨hparse, hreads, (parse_print_of_parse_iff hparse).mpr hreads⟩

/-- The sheet of `a { b:c\ }`. The blank behind the backslash is trimmed. -/
def escapedSheet : Sheet where
  nodes := #[⟨.root, none, [1]⟩, ⟨.rule "a", some 0, [2]⟩,
    ⟨.declaration "b" "c\\" false, some 1, []⟩]
  nonempty := by decide

def escapedForest : Forest :=
  .node 1 (.rule "a") (.node 2 (.declaration "b" "c\\" false) .nil .nil) .nil

/-- The backslash takes the printed semicolon into the value. -/
theorem parse_print_ne_escapedSheet :
    parse "a\x7bb:c\\ \x7d" = .ok escapedSheet ∧ parse escapedSheet.print ≠ .ok escapedSheet := by
  have hparse : parse "a\x7bb:c\\ \x7d" = .ok escapedSheet := by decide +kernel
  have hholds : escapedSheet.Holds escapedForest := by
    refine ⟨rfl, ?_⟩
    simp [escapedForest, Forest.Mirrors, Forest.roots, escapedSheet, Sheet.get?, rootId]
  have hformed : escapedForest.Formed := by
    simp [escapedForest, Forest.Formed, Content.opensBlock]
  have htext := (wellFormed_of_parse hparse).linked.print_of_holds hholds hformed
  refine ⟨hparse, ?_⟩
  rw [parse, htext]
  decide +kernel

end Unnest
