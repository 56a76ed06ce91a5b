import Unnest.Proofs.Source.Parsed
import Unnest.Proofs.Source.Reads

/-!
# Blocks, round by round

An outline is a flat row of pieces. Here a text is read as the block that it is,
by a loop: each round skips blanks and then takes a semicolon, or a node with all
that belongs to it, or it returns. A node with a block is taken by such a loop of
its own. `readBlock` keeps a record of the rounds, those of nested blocks included.

What one round finds is left to `look`, and `look_advances` says how far it comes.
That is what makes the loop end. `outlineFrom_eq_readBlock` says that the flat and
the nested reading find the same pieces and the same faults.
-/

namespace Unnest.Source

open Text

/-! ## Coming past a character -/

/-- `left` is an end of `input`, behind at least one character of it. -/
structure Past (input left : List Char) : Prop where
  suffix : left <:+ input
  lt : left.length < input.length

section past

variable {input left : List Char}

theorem past_cons (c : Char) (rest : List Char) : Past (c :: rest) rest :=
  ⟨List.suffix_cons c rest, by simp⟩

theorem Past.trans_suffix (h : Past input left) {behind : List Char} (hbehind : behind <:+ left) :
    Past input behind :=
  ⟨hbehind.trans h.suffix, hbehind.length_le.trans_lt h.lt⟩

theorem Past.of_suffix (h : Past input left) {longer : List Char} (hinput : input <:+ longer) :
    Past longer left :=
  ⟨h.suffix.trans hinput, h.lt.trans_le hinput.length_le⟩

end past

theorem Piece.past_of_next {nested : Bool} {c : Char} {rest left : List Char} {piece : Piece}
    (h : next nested c rest = .ok (piece, left)) : Past (c :: rest) left := by
  refine ⟨(piece.suffix_behind left).trans (behind_suffix_of_next h), ?_⟩
  have hlength := length_next h
  rw [List.length_cons]
  omega

/-! ## One round -/

/-- What is left behind a node without a block, once the semicolon that ends a
statement is taken too. -/
def behindLeaf : Content → List Char → List Char
  | .comment _, left => left
  | _, ';' :: left => left
  | _, left => left

theorem behindLeaf_suffix (content : Content) (left : List Char) :
    behindLeaf content left <:+ left := by
  unfold behindLeaf
  split
  · exact List.suffix_refl _
  · exact List.suffix_cons _ _
  · exact List.suffix_refl _

inductive Found where
  | fails (fault : Fault)
  /-- The end of the block. -/
  | closes (left : List Char)
  /-- A semicolon, which is no piece, or a node without a block. -/
  | passes (pieces : List Piece) (left : List Char)
  /-- A node with the block that begins with `body`. -/
  | enters (content : Content) (body : List Char)

def Found.ofNext : Except Fault (Piece × List Char) → Found
  | .error fault => fails fault
  | .ok (.closing, left) => closes left
  | .ok (.leaf content, left) => passes [.leaf content] (behindLeaf content left)
  | .ok (.opening content, body) => enters content body

/-- What a round finds in front of `input`. The block that it reads is known by the
text behind its brace, or is the whole sheet. -/
def look (opened : Option (List Char)) (input : List Char) : Found :=
  match input.dropWhile isBlank with
  | [] =>
      match opened with
      | none => .closes []
      | some body => .fails ⟨.unclosedBlock, '\x7b' :: body⟩
  | c :: rest => if c = ';' then .passes [] rest else .ofNext (Piece.next opened.isSome c rest)

/-- Whether the round comes past a character of `input`. Only at top level it may
find the end without one. -/
def Found.Advances (nested : Bool) (input : List Char) : Found → Prop
  | fails _ => True
  | closes left => left <:+ input ∧ (nested = true → Past input left)
  | passes _ left => Past input left
  | enters _ body => Past input body

theorem Found.advances_ofNext {nested : Bool} {c : Char} {rest : List Char} :
    (ofNext (Piece.next nested c rest)).Advances nested (c :: rest) := by
  cases hnext : Piece.next nested c rest with
  | error fault => trivial
  | ok found =>
      obtain ⟨piece, left⟩ := found
      have hpast := Piece.past_of_next hnext
      cases piece with
      | opening content => exact hpast
      | leaf content => exact hpast.trans_suffix (behindLeaf_suffix content left)
      | closing => exact ⟨hpast.suffix, fun _ => hpast⟩

private theorem Found.Advances.of_suffix {nested : Bool} {input longer : List Char} {found : Found}
    (h : found.Advances nested input) (hinput : input <:+ longer) :
    found.Advances nested longer := by
  cases found with
  | fails fault => trivial
  | closes left => exact ⟨h.1.trans hinput, fun hnested => (h.2 hnested).of_suffix hinput⟩
  | passes pieces left => exact Past.of_suffix h hinput
  | enters content body => exact Past.of_suffix h hinput

theorem look_advances (opened : Option (List Char)) (input : List Char) :
    (look opened input).Advances opened.isSome input := by
  have hblanks : input.dropWhile isBlank <:+ input := List.dropWhile_suffix isBlank
  unfold look
  split
  · cases opened with
    | none => exact ⟨List.nil_suffix, nofun⟩
    | some body => trivial
  · next c rest hskip =>
      rw [hskip] at hblanks
      split
      · exact (past_cons c rest).of_suffix hblanks
      · exact Found.advances_ofNext.of_suffix hblanks

/-! ## The loop -/

structure Round where
  /-- What is left when the round begins. -/
  start : List Char
  /-- What is left when a nested block begins, if there is one in this round. -/
  inner? : Option (List Char)
  /-- What is left when the next round begins, if the loop does not return. -/
  next? : Option (List Char)
deriving DecidableEq

/-- The rounds of a loop and of those in it, in the order in which they begin,
and the pieces of the block with what is left behind it. -/
structure BlockRun (input : List Char) where
  rounds : List Round
  result : Except Fault (List Piece × List Char)
  suffix {pieces : List Piece} {left : List Char} :
    result = .ok (pieces, left) → left <:+ input

theorem exists_ok_of_map_append {found : Except Fault (List Piece × List Char)}
    {before pieces : List Piece} {left : List Char}
    (h : (found.map fun (others, left) => (before ++ others, left)) = .ok (pieces, left)) :
    ∃ others, found = .ok (others, left) := by
  cases found with
  | error fault => cases h
  | ok found =>
      cases h
      exact ⟨found.1, rfl⟩

def BlockRun.behind {input left : List Char} (rounds : List Round) (pieces : List Piece)
    (hleft : left <:+ input) (run : BlockRun left) : BlockRun input where
  rounds := rounds ++ run.rounds
  result := run.result.map fun (others, left) => (pieces ++ others, left)
  suffix := by
    intro _ _ h
    obtain ⟨others, hresult⟩ := exists_ok_of_map_append h
    exact (run.suffix hresult).trans hleft

@[simp] theorem BlockRun.rounds_behind {input left : List Char} (rounds : List Round)
    (pieces : List Piece) (hleft : left <:+ input) (run : BlockRun left) :
    (run.behind rounds pieces hleft).rounds = rounds ++ run.rounds := rfl

@[simp] theorem BlockRun.result_behind {input left : List Char} (rounds : List Round)
    (pieces : List Piece) (hleft : left <:+ input) (run : BlockRun left) :
    (run.behind rounds pieces hleft).result =
      run.result.map fun (others, left) => (pieces ++ others, left) := rfl

/-- Reads the block that `input` begins with, up to its closing brace, or to the
end of the text if no block is open. -/
def readBlock (opened : Option (List Char)) (input : List Char) : BlockRun input :=
  have hadvances := look_advances opened input
  match hlook : look opened input with
  | .fails fault => ⟨[⟨input, none, none⟩], .error fault, nofun⟩
  | .closes left =>
      ⟨[⟨input, none, none⟩], .ok ([], left), by
        rintro _ _ ⟨⟩
        rw [hlook] at hadvances
        exact hadvances.1⟩
  | .passes pieces left =>
      have hleft : Past input left := by rwa [hlook] at hadvances
      (readBlock opened left).behind [⟨input, none, some left⟩] pieces hleft.suffix
  | .enters content body =>
      have hbody : Past input body := by rwa [hlook] at hadvances
      match readBlock (some body) body with
      | ⟨rounds, .error fault, _⟩ => ⟨⟨input, some body, none⟩ :: rounds, .error fault, nofun⟩
      | ⟨rounds, .ok (pieces, left), hinner⟩ =>
          have hleft : Past input left := hbody.trans_suffix (hinner rfl)
          (readBlock opened left).behind (⟨input, some body, some left⟩ :: rounds)
            (.opening content :: (pieces ++ [.closing])) hleft.suffix
termination_by input.length
decreasing_by
  · exact hleft.lt
  · exact hbody.lt
  · exact hleft.lt

/-! ## The flat reading -/

/-- What a flat reading goes on with behind a block: the closing, and the pieces
of the blocks around. At top level nothing is behind. -/
def outlineBehind (opened : List (List Char)) (found : List Piece × List Char) :
    Except Fault (List Piece) :=
  match opened with
  | [] => .ok found.1
  | _ :: outer => (outlineFrom outer found.2).map fun others => found.1 ++ .closing :: others

theorem bind_outlineBehind {input left : List Char} (opened : List (List Char))
    (rounds : List Round) (pieces : List Piece) (hleft : left <:+ input) (run : BlockRun left) :
    (run.behind rounds pieces hleft).result.bind (outlineBehind opened) =
      (run.result.bind (outlineBehind opened)).map (pieces ++ ·) := by
  rw [BlockRun.result_behind]
  cases run.result with
  | error fault => rfl
  | ok found =>
      cases opened with
      | nil => rfl
      | cons body outer =>
          show (outlineFrom outer found.2).map _ = ((outlineFrom outer found.2).map _).map _
          cases outlineFrom outer found.2 with
          | error fault => rfl
          | ok others => simp [Except.map]

def Found.outline (opened : List (List Char)) : Found → Except Fault (List Piece)
  | fails fault => .error fault
  | closes left => outlineBehind opened ([], left)
  | passes pieces left => (outlineFrom opened left).map (pieces ++ ·)
  | enters content body => (outlineFrom (body :: opened) body).map (.opening content :: ·)

private theorem outlineFrom_behindLeaf (opened : List (List Char)) (content : Content)
    (left : List Char) :
    outlineFrom opened (behindLeaf content left) = outlineFrom opened left := by
  unfold behindLeaf
  split
  · rfl
  · exact (outlineFrom_filler rfl opened _).symm
  · rfl

private theorem outlineFrom_eq_ofNext {opened : List (List Char)} {c : Char} {rest : List Char}
    (hc : isFiller c = false) :
    outlineFrom opened (c :: rest) =
      (Found.ofNext (Piece.next (!opened.isEmpty) c rest)).outline opened := by
  rw [outlineFrom_cons hc]
  cases hnext : Piece.next (!opened.isEmpty) c rest with
  | error fault => rfl
  | ok found =>
      obtain ⟨piece, left⟩ := found
      cases piece with
      | opening content => rfl
      | leaf content =>
          show (outlineFrom opened left).map _ =
            (outlineFrom opened (behindLeaf content left)).map _
          rw [outlineFrom_behindLeaf]
          rfl
      | closing =>
          -- at top level the reader refuses a closing
          have hfits := fits_of_next hc hnext
          cases opened with
          | nil => cases hfits
          | cons body outer => rfl

private theorem outlineFrom_eq_look (opened : List (List Char)) (input : List Char) :
    outlineFrom opened input = (look opened.head? input).outline opened := by
  have hblanks : ∀ c ∈ input.takeWhile isBlank, isFiller c = true := by
    intro c hc
    simp [isFiller, List.mem_takeWhile_imp hc]
  have hinner : opened.head?.isSome = !opened.isEmpty := by cases opened <;> rfl
  rw [← List.takeWhile_append_dropWhile (p := isBlank) (l := input), outlineFrom_fillers hblanks,
    List.takeWhile_append_dropWhile]
  unfold look
  split
  · next hskip =>
      rw [hskip, outlineFrom.eq_def]
      cases opened <;> rfl
  · next c rest hskip =>
      rw [hskip]
      split
      · next hsemicolon =>
          rw [outlineFrom_filler (by simp [isFiller, hsemicolon])]
          show _ = (outlineFrom opened rest).map _
          cases outlineFrom opened rest <;> rfl
      · next hsemicolon =>
          have hblank : isBlank c = false := by
            have hhead := List.head?_dropWhile_not isBlank input
            rw [hskip] at hhead
            simpa using hhead
          rw [hinner]
          exact outlineFrom_eq_ofNext (by simp [isFiller, hblank, hsemicolon])

/-- The flat reading finds what the loop finds. -/
theorem outlineFrom_eq_readBlock {opened : List (List Char)} {innermost : Option (List Char)}
    (hopened : innermost = opened.head?) (input : List Char) :
    outlineFrom opened input = (readBlock innermost input).result.bind (outlineBehind opened) := by
  fun_induction readBlock innermost input generalizing opened with
  | case1 innermost input hadvances fault hlook =>
      rw [outlineFrom_eq_look, ← hopened, hlook]
      rfl
  | case2 innermost input hadvances left hlook =>
      rw [outlineFrom_eq_look, ← hopened, hlook]
      rfl
  | case3 innermost input hadvances pieces left hlook hleft ih =>
      rw [outlineFrom_eq_look, ← hopened, hlook, bind_outlineBehind, ← ih hopened]
      rfl
  | case4 innermost input hadvances content body hlook hbody rounds fault _ hinner ih =>
      have hbelow : outlineFrom (body :: opened) body =
          (readBlock (some body) body).result.bind (outlineBehind (body :: opened)) := ih rfl
      rw [outlineFrom_eq_look, ← hopened, hlook, Found.outline, hbelow, hinner]
      rfl
  | case5 innermost input hadvances content body hlook hbody rounds pieces left _ hinner hleft ih
      ih' =>
      have hbelow : outlineFrom (body :: opened) body =
          (readBlock (some body) body).result.bind (outlineBehind (body :: opened)) := ih rfl
      rw [outlineFrom_eq_look, ← hopened, hlook, Found.outline, hbelow, hinner, bind_outlineBehind,
        ← ih' hopened]
      show ((outlineFrom opened left).map _).map _ = (outlineFrom opened left).map _
      cases outlineFrom opened left with
      | error fault => rfl
      | ok others => simp [Except.map]

theorem outline_eq_readBlock (input : List Char) :
    outline input = (readBlock none input).result.map Prod.fst := by
  have hopened : none = ([] : List (List Char)).head? := rfl
  rw [outline, outlineFrom_eq_readBlock hopened]
  cases (readBlock none input).result <;> rfl

end Unnest.Source
