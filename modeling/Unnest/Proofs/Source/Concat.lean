import Unnest.Proofs.Source.Ahead
import Unnest.Proofs.Source.Culprit
import Unnest.Proofs.Source.RoundTrip

/-!
# Reading one sheet behind another

A text that reads the same with and without a semicolon behind it is complete.
What is written behind the semicolon is read as if it stood alone: its nodes are
added behind those that are there, and its errors are found at the same character.
-/

namespace Unnest

open Source Text

/-! ## Sheets behind one another -/

namespace Sheet

def idBehind (s : Sheet) (id : NodeId) : NodeId :=
  if id = rootId then rootId else id + s.size - 1

/-- The sheet `u` is `s` with the nodes of `t` added behind its own, and those at
the top of `t` behind those at its own top. -/
structure Extended (s t u : Sheet) : Prop where
  size : u.size = s.size + t.size - 1
  root : u.get? rootId =
    some ⟨.root, none, s.children rootId ++ (t.children rootId).map s.idBehind⟩
  own {id : NodeId} : id < s.size → id ≠ rootId → u.get? id = s.get? id
  added {id : NodeId} : id < t.size → id ≠ rootId →
    u.content? (s.idBehind id) = t.content? id ∧
      u.parent? (s.idBehind id) = (t.parent? id).map s.idBehind ∧
        u.children (s.idBehind id) = (t.children id).map s.idBehind

/-- To number a forest behind a sheet is to number it by itself and add it there. -/
theorem mapIds_idBehind (s : Sheet) (forest : Forest) :
    (forest.number 1).mapIds s.idBehind = forest.number s.size := by
  have hsize : 1 + (s.size - 1) = s.size := Nat.add_sub_cancel' s.size_pos
  rw [← hsize, ← Forest.mapIds_number]
  apply Forest.mapIds_congr
  intro id hid
  rw [Forest.ids_number, List.mem_range'_1] at hid
  have hne : id ≠ rootId := Nat.ne_of_gt hid.1
  rw [idBehind, if_neg hne, Nat.add_sub_assoc s.size_pos]

theorem ofPieces_append {forest forest' : Forest} (h : forest.Formed) (h' : forest'.Formed) :
    ofPieces (forest.pieces ++ forest'.pieces) = plant rootId forest' (ofPieces forest.pieces) := by
  have hfirst := build_pieces h empty [] []
  have hsecond := build_pieces h' (ofPieces forest.pieces) [] []
  rw [List.append_nil] at hfirst hsecond
  calc
    ofPieces (forest.pieces ++ forest'.pieces)
        = (ofPieces forest.pieces).build [] forest'.pieces := by
      rw [ofPieces, ofPieces, build_pieces h, hfirst, build]
    _ = plant rootId forest' (ofPieces forest.pieces) := hsecond

theorem extended_ofPieces {forest forest' : Forest} (h : forest.Formed) (h' : forest'.Formed) :
    (ofPieces forest.pieces).Extended (ofPieces forest'.pieces)
      (ofPieces (forest.pieces ++ forest'.pieces)) := by
  have hown := holds_ofPieces h
  have hadded := holds_ofPieces h'
  have hplanted : Planted (ofPieces forest.pieces) rootId forest' _ :=
    planted_plant h' (size_pos _) fun node hnode => by
      rw [hown.root] at hnode
      cases hnode
      rfl
  rw [← ofPieces_append h h'] at hplanted
  have hmirrors := hplanted.mirrors
  have hroot := hplanted.get?_parent
  rw [← mapIds_idBehind] at hmirrors hroot
  refine ⟨?_, ?_, hplanted.get?_of_ne, ?_⟩
  · rw [hplanted.size, size_ofPieces h', ← Nat.add_assoc, Nat.add_sub_cancel]
  · rw [hroot, hown.root, hadded.children_root, hown.children_root, Forest.roots_mapIds]
    rfl
  · intro id hlt hne
    have hid : id ∈ (forest'.number 1).ids := by
      have hmem := mem_ids.mpr hlt
      rw [ids_ofPieces h'] at hmem
      exact (List.mem_cons.mp hmem).resolve_left hne
    exact renumbered_of_mapIds (f := (ofPieces forest.pieces).idBehind) hadded.mirrors hmirrors hid

end Sheet

/-! ## Reading on behind a semicolon -/

theorem toList_append_semicolon (a b : String) :
    (a ++ ";" ++ b).toList = a.toList ++ ';' :: b.toList := by
  simp

/-- A text that is complete is a forest, and what is behind a semicolon is read
on its own. -/
theorem exists_forest_of_complete {a : String} {s : Sheet} (ha : parse a = .ok s)
    (hclosed : parse (a ++ ";") = .ok s) :
    ∃ forest : Forest, s = .ofPieces forest.pieces ∧ forest.Formed ∧
      ∀ b : String, outline (a ++ ";" ++ b).toList =
        (outline b.toList).map (forest.pieces ++ ·) := by
  obtain ⟨forest, houtline, heq, hforest, hfits⟩ := exists_forest_of_parse ha
  obtain ⟨forest', houtline', -, hforest', -⟩ := exists_forest_of_parse hclosed
  obtain rfl := hforest.unique hforest'
  rw [String.toList_append] at houtline'
  refine ⟨forest, heq, hfits.formed, ?_⟩
  intro b
  rw [toList_append_semicolon]
  exact outlineFrom_append houtline houtline' b.toList

/-- If a text reads the same with and without a semicolon behind it, a text
behind the semicolon is read as by itself. Its nodes are added behind those of
the first text, or it fails for the same reason at the same character. -/
theorem parse_append {a b : String} {s : Sheet} (ha : parse a = .ok s)
    (hclosed : parse (a ++ ";") = .ok s) :
    (∀ t, parse b = .ok t → ∃ u, parse (a ++ ";" ++ b) = .ok u ∧ s.Extended t u) ∧
      ∀ error, parse b = .error error →
        ∃ before rest, (a ++ ";" ++ b).toList = before ++ rest ∧
          byteLength before = error.position.offset + a.utf8ByteSize + 1 ∧
          parse (a ++ ";" ++ b) = .error ⟨error.reason, .after before⟩ := by
  obtain ⟨forest, rfl, hformed, houtline⟩ := exists_forest_of_complete ha hclosed
  constructor
  · intro t hb
    obtain ⟨forest', hread, rfl, -, hfits⟩ := exists_forest_of_parse hb
    refine ⟨_, ?_, Sheet.extended_ofPieces hformed hfits.formed⟩
    rw [parse, houtline, hread]
    rfl
  · intro error hb
    obtain ⟨fault, hread, rfl⟩ := exists_fault_of_parse_error hb
    obtain ⟨pieces, opened, left, hreads, hfails⟩ := exists_reads_of_outline_error hread
    obtain ⟨before, hbefore⟩ := (hreads.blames hfails).suffix
    have hsplit : (a ++ ";" ++ b).toList = (a.toList ++ ';' :: before) ++ fault.rest := by
      rw [toList_append_semicolon, ← hbefore]
      simp
    have hsize : byteLength a.toList = a.utf8ByteSize := by
      rw [← utf8ByteSize_ofList, String.ofList_toList]
    refine ⟨a.toList ++ ';' :: before, fault.rest, hsplit, ?_, ?_⟩
    · rw [SyntaxError.ofFault, ← hbefore, Position.ofRest_append, byteLength_append,
        byteLength_cons, hsize]
      show a.utf8ByteSize + (1 + byteLength before) = byteLength before + a.utf8ByteSize + 1
      omega
    · rw [parse, houtline, hread, hsplit]
      show Except.error (SyntaxError.ofFault _ fault) = _
      rw [SyntaxError.ofFault, Position.ofRest_append]
      rfl

/-- The sheet of `@m (y)`. -/
def statementSheet : Sheet where
  nodes := #[⟨.root, none, [1]⟩, ⟨.atRule "m" "(y)" false, some 0, []⟩]
  nonempty := by decide

/-- An at-rule that the end of the text ends, and behind it a rule, or a brace in
the second line. -/
theorem parse_append_statementSheet :
    parse "@m (y)" = .ok statementSheet ∧ parse "@m (y);" = .ok statementSheet ∧
      (∃ t u, parse "a\x7bb:c\x7d" = .ok t ∧ parse "@m (y);a\x7bb:c\x7d" = .ok u ∧
        statementSheet.Extended t u) ∧
      parse "é\x7b\x7d\n\x7d" = .error ⟨.unexpectedClosing, ⟨5, 2, 1⟩⟩ ∧
      ∃ before rest, "@m (y);é\x7b\x7d\n\x7d".toList = before ++ rest ∧ byteLength before = 12 ∧
        parse "@m (y);é\x7b\x7d\n\x7d" = .error ⟨.unexpectedClosing, .after before⟩ := by
  have ha : parse "@m (y)" = .ok statementSheet := by decide +kernel
  have hclosed : parse ("@m (y)" ++ ";") = .ok statementSheet := by decide +kernel
  have hb : parse "a\x7bb:c\x7d" = .ok ⟨#[⟨.root, none, [1]⟩, ⟨.rule "a", some 0, [2]⟩,
      ⟨.declaration "b" "c" false, some 1, []⟩], by decide⟩ := by
    decide +kernel
  have herror : parse "é\x7b\x7d\n\x7d" = .error ⟨.unexpectedClosing, ⟨5, 2, 1⟩⟩ := by
    decide +kernel
  obtain ⟨u, hu, hextended⟩ := (parse_append ha hclosed).1 _ hb
  obtain ⟨before, rest, hsplit, hlength, hfails⟩ := (parse_append ha hclosed).2 _ herror
  exact ⟨ha, hclosed, ⟨_, u, hb, hu, hextended⟩, herror, before, rest, hsplit, hlength, hfails⟩

end Unnest
