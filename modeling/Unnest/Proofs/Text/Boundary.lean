import Mathlib.Data.String.Basic
import Unnest.Text.Position

/-!
# Offsets into a text

`byteLength` counts bytes of characters, and texts are stored as bytes. An
offset that is counted so is one at which the stored text may be cut, and the
character there is the first of what is left.
-/

namespace Unnest.Text

theorem byteLength_eq_utf8Len (text : List Char) : byteLength text = String.utf8Len text := by
  induction text with
  | nil => rfl
  | cons c rest ih => rw [byteLength_cons, ih, String.utf8Len_cons, Nat.add_comm]

theorem utf8ByteSize_ofList (text : List Char) :
    (String.ofList text).utf8ByteSize = byteLength text := by
  rw [byteLength_eq_utf8Len, String.utf8ByteSize_ofList]

theorem byteLength_toList (source : String) :
    byteLength source.toList = source.utf8ByteSize := by
  rw [← utf8ByteSize_ofList, String.ofList_toList]

/-- The source may be cut in front of `rest`, at the given offset. -/
structure CutsAt (source : String) (rest : List Char) (offset : Nat) : Prop where
  exists_before : ∃ before, source.toList = before ++ rest ∧ offset = byteLength before
  isValid : (⟨offset⟩ : String.Pos.Raw).IsValid source
  get? : String.Pos.Raw.get? source ⟨offset⟩ = rest.head?

theorem isValid_byteLength (before rest : List Char) :
    (⟨byteLength before⟩ : String.Pos.Raw).IsValid (String.ofList (before ++ rest)) := by
  rw [String.Pos.Raw.isValid_iff_exists_append]
  refine ⟨String.ofList before, String.ofList rest, String.ofList_append, ?_⟩
  rw [String.Pos.Raw.ext_iff, ← utf8ByteSize_ofList]
  rfl

private theorem get?_byteLength (before rest : List Char) :
    String.Pos.Raw.get? (String.ofList (before ++ rest)) ⟨byteLength before⟩ = rest.head? := by
  rw [byteLength_eq_utf8Len, String.get?_of_valid]

theorem cutsAt_of_append {source : String} {before rest : List Char}
    (h : source.toList = before ++ rest) : CutsAt source rest (byteLength before) := by
  have hsource : source = String.ofList (before ++ rest) := by
    rw [← h, String.ofList_toList]
  refine ⟨⟨before, h, rfl⟩, ?_, ?_⟩
  · rw [hsource]
    exact isValid_byteLength before rest
  · rw [hsource]
    exact get?_byteLength before rest

theorem cutsAt_of_suffix {source : String} {rest : List Char} (h : rest <:+ source.toList) :
    CutsAt source rest (Position.ofRest source.toList rest).offset := by
  obtain ⟨before, hsplit⟩ := h
  have hoffset : (Position.ofRest source.toList rest).offset = byteLength before := by
    rw [← hsplit, Position.ofRest_append]
    rfl
  rw [hoffset]
  exact cutsAt_of_append hsplit.symm

theorem exists_cutsAt_of_isValid {source : String} {pos : String.Pos.Raw}
    (h : pos.IsValid source) : ∃ rest, CutsAt source rest pos.byteIdx := by
  obtain ⟨before, rest, rfl, rfl⟩ := String.Pos.Raw.isValid_iff_exists_append.mp h
  refine ⟨rest.toList, ?_⟩
  rw [String.byteIdx_rawEndPos, ← byteLength_toList]
  exact cutsAt_of_append String.toList_append

theorem CutsAt.suffix {source : String} {rest : List Char} {offset : Nat}
    (h : CutsAt source rest offset) : rest <:+ source.toList := by
  obtain ⟨before, hsplit, -⟩ := h.exists_before
  exact ⟨before, hsplit.symm⟩

theorem CutsAt.add_byteLength {source : String} {rest : List Char} {offset : Nat}
    (h : CutsAt source rest offset) : offset + byteLength rest = source.utf8ByteSize := by
  obtain ⟨before, hsplit, rfl⟩ := h.exists_before
  rw [← byteLength_append, ← hsplit, byteLength_toList]

theorem CutsAt.lt_utf8ByteSize {source : String} {c : Char} {rest : List Char} {offset : Nat}
    (h : CutsAt source (c :: rest) offset) : offset < source.utf8ByteSize := by
  have hpos := c.utf8Size_pos
  have hbytes := h.add_byteLength
  rw [byteLength_cons] at hbytes
  omega

theorem CutsAt.append {source : String} {rest : List Char} {offset : Nat} (middle : List Char)
    (h : CutsAt source (middle ++ rest) offset) :
    CutsAt source rest (offset + byteLength middle) := by
  obtain ⟨before, hsplit, rfl⟩ := h.exists_before
  rw [← byteLength_append]
  exact cutsAt_of_append (by rw [hsplit, List.append_assoc])

theorem CutsAt.cons {source : String} {c : Char} {rest : List Char} {offset : Nat}
    (h : CutsAt source (c :: rest) offset) : CutsAt source rest (offset + c.utf8Size) :=
  h.append [c]

/-! ## Slices -/

/-- The stored text between two offsets. There is none unless both are offsets at
which the text may be cut, the first not behind the other. -/
def slice? (source : String) (first last : Nat) : Option String :=
  if (⟨first⟩ : String.Pos.Raw).isValid source ∧ (⟨last⟩ : String.Pos.Raw).isValid source ∧
      first ≤ last then
    some (String.Pos.Raw.extract source ⟨first⟩ ⟨last⟩)
  else none

theorem CutsAt.slice?_eq {source : String} {middle rest : List Char} {offset : Nat}
    (h : CutsAt source (middle ++ rest) offset) :
    slice? source offset (offset + byteLength middle) = some (String.ofList middle) := by
  rw [slice?, if_pos ⟨String.Pos.Raw.isValid_eq_true_iff.mpr h.isValid,
    String.Pos.Raw.isValid_eq_true_iff.mpr (h.append middle).isValid, Nat.le_add_right _ _⟩]
  obtain ⟨before, hsplit, rfl⟩ := h.exists_before
  have hsource : source = String.ofList (before ++ middle ++ rest) := by
    rw [List.append_assoc, ← hsplit, String.ofList_toList]
  rw [hsource, byteLength_eq_utf8Len, byteLength_eq_utf8Len, String.extract_of_valid]

theorem CutsAt.slice?_rest {source : String} {rest : List Char} {offset : Nat}
    (h : CutsAt source rest offset) :
    slice? source offset source.utf8ByteSize = some (String.ofList rest) := by
  rw [← List.append_nil rest] at h
  have hslice := h.slice?_eq
  rwa [(h.append rest).add_byteLength.symm.trans (Nat.add_zero _)]

/-! ## Lines -/

/-- A text is its last line behind the lines above, which end in a newline. -/
theorem exists_above_lastLine (text : List Char) :
    ∃ above, text = above ++ lastLine text ∧ ∀ c ∈ above.getLast?, c = '\n' := by
  refine ⟨(text.reverse.dropWhile (· != '\n')).reverse, ?_, ?_⟩
  · rw [lastLine, ← List.reverse_append, List.takeWhile_append_dropWhile, List.reverse_reverse]
  · intro c hc
    have hhead := List.head?_dropWhile_not (· != '\n') text.reverse
    rw [List.getLast?_reverse] at hc
    rw [Option.mem_def.mp hc] at hhead
    simpa using hhead

end Unnest.Text
