import Unnest.Proofs.Source.Block
import Unnest.Proofs.Text.Boundary
import Unnest.Source.Parse

/-!
# The reader always advances

Rounds of a loop, those of nested blocks included, begin at places that follow one
another in the text. A round with which the loop does not return ends past the
place where it began, and a block begins past the place where the round around it
began. So there are no more rounds than bytes, but for one that finds nothing left.
-/

namespace Unnest

open Source Text

namespace Source

/-! ## Rows of rounds -/

def Round.goesOn (round : Round) : Bool :=
  round.next?.isSome

def Round.hasText (round : Round) : Bool :=
  !round.start.isEmpty

/-- Whether the rounds begin in `input`, each past where all rounds before it began,
and what is in a round comes past its beginning. -/
structure Orderly (input : List Char) (rounds : List Round) : Prop where
  within : ∀ round ∈ rounds, round.start <:+ input
  starts : rounds.Pairwise fun earlier later => Past earlier.start later.start
  next : ∀ round ∈ rounds, ∀ left ∈ round.next?, Past round.start left
  inner : ∀ round ∈ rounds, ∀ body ∈ round.inner?, Past round.start body ∧
    round :: (readBlock (some body) body).rounds <:+: rounds

section orderly

variable {input left : List Char} {rounds others : List Round}

theorem orderly_singleton (input : List Char) : Orderly input [⟨input, none, none⟩] :=
  ⟨by simp, List.pairwise_singleton _ _, by simp, by simp⟩

theorem Orderly.cons (h : Orderly left rounds) (hleft : Past input left)
    {inner? next? : Option (List Char)} (hnext : ∀ next ∈ next?, Past input next)
    (hinner : ∀ body ∈ inner?, Past input body ∧
      (readBlock (some body) body).rounds <+: rounds) :
    Orderly input (⟨input, inner?, next?⟩ :: rounds) := by
  have hstarts : ∀ later ∈ rounds, Past input later.start := by
    intro later hlater
    exact hleft.trans_suffix (h.within later hlater)
  refine ⟨List.forall_mem_cons.mpr ⟨List.suffix_refl input, ?_⟩,
    List.pairwise_cons.mpr ⟨hstarts, h.starts⟩, List.forall_mem_cons.mpr ⟨hnext, h.next⟩,
    List.forall_mem_cons.mpr ⟨?_, ?_⟩⟩
  · intro later hlater
    exact (hstarts later hlater).suffix
  · intro body hbody
    obtain ⟨hpast, hprefix⟩ := hinner body hbody
    exact ⟨hpast, (List.cons_prefix_cons.mpr ⟨rfl, hprefix⟩).isInfix⟩
  · intro later hlater body hbody
    obtain ⟨hpast, hinfix⟩ := h.inner later hlater body hbody
    exact ⟨hpast, hinfix.trans (List.suffix_cons _ rounds).isInfix⟩

theorem Orderly.append (h : Orderly input rounds) (h' : Orderly left others)
    (hleft : left <:+ input) (hrounds : ∀ round ∈ rounds, Past round.start left) :
    Orderly input (rounds ++ others) := by
  refine ⟨List.forall_mem_append.mpr ⟨h.within, ?_⟩,
    List.pairwise_append.mpr ⟨h.starts, h'.starts, ?_⟩,
    List.forall_mem_append.mpr ⟨h.next, h'.next⟩, List.forall_mem_append.mpr ⟨?_, ?_⟩⟩
  · intro round hround
    exact (h'.within round hround).trans hleft
  · intro earlier hearlier later hlater
    exact (hrounds earlier hearlier).trans_suffix (h'.within later hlater)
  · intro round hround body hbody
    obtain ⟨hpast, hinfix⟩ := h.inner round hround body hbody
    exact ⟨hpast, hinfix.trans (List.prefix_append rounds others).isInfix⟩
  · intro round hround body hbody
    obtain ⟨hpast, hinfix⟩ := h'.inner round hround body hbody
    exact ⟨hpast, hinfix.trans (List.suffix_append rounds others).isInfix⟩

end orderly

/-! ## The rounds of a loop -/

section rounds

variable {opened : Option (List Char)} {input : List Char}

theorem head?_rounds (opened : Option (List Char)) (input : List Char) :
    (readBlock opened input).rounds.head?.map Round.start = some input := by
  fun_cases readBlock opened input <;> rfl

/-- All rounds of a block that is closed begin in front of what is left behind it,
since the last of them still takes the closing brace. -/
theorem past_of_closed {pieces : List Piece} {left : List Char} (hopened : opened.isSome = true)
    (hresult : (readBlock opened input).result = .ok (pieces, left)) {round : Round}
    (h : round ∈ (readBlock opened input).rounds) : Past round.start left := by
  fun_induction readBlock opened input generalizing pieces left with
  | case1 opened input _ fault hlook => cases hresult
  | case2 opened input hadvances behind hlook =>
      cases hresult
      rw [hlook] at hadvances
      rw [List.mem_singleton.mp h]
      exact hadvances.2 hopened
  | case3 opened input _ before behind hlook hbehind ih =>
      obtain ⟨others, hrest⟩ := exists_ok_of_map_append hresult
      rw [BlockRun.rounds_behind] at h
      rcases List.mem_cons.mp h with rfl | h
      · exact hbehind.trans_suffix ((readBlock opened behind).suffix hrest)
      · exact ih hopened hrest h
  | case4 opened input _ content body hlook hbody rounds fault _ hinner ih => cases hresult
  | case5 opened input _ content body hlook hbody rounds inside behind _ hinner hbehind ih ih' =>
      obtain ⟨others, hrest⟩ := exists_ok_of_map_append hresult
      have hleft : left <:+ behind := (readBlock opened behind).suffix hrest
      rw [hinner] at ih
      rw [BlockRun.rounds_behind, List.cons_append] at h
      rcases List.mem_cons.mp h with rfl | h
      · exact hbehind.trans_suffix hleft
      · rcases List.mem_append.mp h with h | h
        · exact (ih rfl rfl h).trans_suffix hleft
        · exact ih' hopened hrest h

theorem orderly_rounds (opened : Option (List Char)) (input : List Char) :
    Orderly input (readBlock opened input).rounds := by
  fun_induction readBlock opened input with
  | case1 opened input _ fault hlook => exact orderly_singleton input
  | case2 opened input _ left hlook => exact orderly_singleton input
  | case3 opened input _ pieces left hlook hleft ih =>
      rw [BlockRun.rounds_behind, List.singleton_append]
      apply ih.cons hleft
      · rintro _ ⟨⟩
        exact hleft
      · rintro _ ⟨⟩
  | case4 opened input _ content body hlook hbody rounds fault _ hinner ih =>
      rw [hinner] at ih
      apply ih.cons hbody
      · rintro _ ⟨⟩
      · rintro _ ⟨⟩
        rw [hinner]
        exact ⟨hbody, List.prefix_refl rounds⟩
  | case5 opened input _ content body hlook hbody rounds pieces left hsuffix hinner hleft ih ih' =>
      have hclosed : ∀ round ∈ rounds, Past round.start left := by
        intro round hround
        have hresult : (readBlock (some body) body).result = .ok (pieces, left) := by rw [hinner]
        apply past_of_closed rfl hresult
        rwa [hinner]
      rw [hinner] at ih
      rw [BlockRun.rounds_behind, List.cons_append]
      -- the rounds in the block are followed by those behind it
      apply (ih.append ih' (hsuffix rfl) hclosed).cons hbody
      · rintro _ ⟨⟩
        exact hleft
      · rintro _ ⟨⟩
        rw [hinner]
        exact ⟨hbody, List.prefix_append rounds _⟩

theorem start_suffix {round : Round} (h : round ∈ (readBlock opened input).rounds) :
    round.start <:+ input :=
  (orderly_rounds opened input).within round h

end rounds

/-! ## Bytes -/

/-- `left` is left at a later place of the source than `start`, and both places
stand between two characters. -/
def Later (source : String) (start left : List Char) : Prop :=
  ∃ offset offset', CutsAt source start offset ∧ CutsAt source left offset' ∧
    offset < offset' ∧ offset' ≤ source.utf8ByteSize

theorem Past.byteLength_lt {input left : List Char} (h : Past input left) :
    byteLength left < byteLength input := by
  obtain ⟨taken, rfl⟩ := h.suffix
  have hlength := h.lt
  have htaken := length_le_byteLength taken
  rw [List.length_append] at hlength
  rw [byteLength_append]
  omega

theorem Past.later {source : String} {start left : List Char} (h : Past start left)
    (hstart : start <:+ source.toList) : Later source start left := by
  have hcut := cutsAt_of_suffix hstart
  have hcut' := cutsAt_of_suffix (h.suffix.trans hstart)
  refine ⟨_, _, hcut, hcut', ?_, ?_⟩
  · have hbytes := hcut.add_byteLength
    have hbytes' := hcut'.add_byteLength
    have hlt := h.byteLength_lt
    omega
  · exact Nat.le_of_add_right_le hcut'.add_byteLength.le

/-- Numbers that descend from below `high` and stay at `low` or above are at most
as many as those between. -/
theorem length_le_of_descending {α : Type} {f : α → Nat} {row : List α} (low high : Nat)
    (hrow : row.Pairwise fun earlier later => f later < f earlier)
    (hbounds : ∀ a ∈ row, low ≤ f a ∧ f a < high) : row.length ≤ high - low := by
  induction row generalizing high with
  | nil => simp
  | cons a row ih =>
      obtain ⟨hfirst, hothers⟩ := List.pairwise_cons.mp hrow
      obtain ⟨⟨hlow, hhigh⟩, hbelow⟩ := List.forall_mem_cons.mp hbounds
      have hlength : row.length ≤ f a - low := by
        apply ih (f a) hothers
        intro b hb
        exact ⟨(hbelow b hb).1, hfirst b hb⟩
      rw [List.length_cons]
      omega

section counts

variable (opened : Option (List Char)) (input : List Char)

theorem byteLength_descending : (readBlock opened input).rounds.Pairwise
    fun earlier later => byteLength later.start < byteLength earlier.start :=
  (orderly_rounds opened input).starts.imp Past.byteLength_lt

theorem byteLength_start_le {round : Round} (h : round ∈ (readBlock opened input).rounds) :
    byteLength round.start ≤ byteLength input := by
  obtain ⟨before, hsplit⟩ := start_suffix h
  rw [← hsplit, byteLength_append]
  exact Nat.le_add_left _ _

theorem length_rounds_le : (readBlock opened input).rounds.length ≤ byteLength input + 1 := by
  apply length_le_of_descending 0 (byteLength input + 1) (byteLength_descending opened input)
  intro round hround
  exact ⟨Nat.zero_le _, Nat.lt_succ_of_le (byteLength_start_le opened input hround)⟩

theorem countP_hasText_le :
    (readBlock opened input).rounds.countP Round.hasText ≤ byteLength input := by
  rw [List.countP_eq_length_filter]
  apply length_le_of_descending 1 (byteLength input + 1)
    ((byteLength_descending opened input).filter Round.hasText)
  intro round hround
  obtain ⟨hmem, htext⟩ := List.mem_filter.mp hround
  obtain ⟨c, rest, hstart⟩ : ∃ c rest, round.start = c :: rest := by
    apply List.exists_cons_of_ne_nil
    simpa [Round.hasText] using htext
  have hpos := c.utf8Size_pos
  have hle := byteLength_start_le opened input hmem
  rw [hstart, byteLength_cons] at hle ⊢
  omega

theorem countP_goesOn_le :
    (readBlock opened input).rounds.countP Round.goesOn ≤ byteLength input := by
  apply le_trans _ (countP_hasText_le opened input)
  apply List.countP_mono_left
  intro round hround hgoes
  obtain ⟨left, hleft⟩ := Option.isSome_iff_exists.mp hgoes
  have hlt := ((orderly_rounds opened input).next round hround left hleft).lt
  simpa [Round.hasText] using List.ne_nil_of_length_pos (Nat.zero_lt_of_lt hlt)

end counts

/-! ## Nodes -/

/-- What is left once all that belongs to a piece is read, when `rest` is what
stands behind the piece: a block is read to its end, and a statement's semicolon
is taken. -/
inductive Piece.Leaves : Piece → List Char → List Char → Prop
  | leaf (content : Content) (rest : List Char) :
      Leaves (.leaf content) rest (behindLeaf content rest)
  | opening (content : Content) {body : List Char} {pieces : List Piece} {left : List Char} :
      (readBlock (some body) body).result = .ok (pieces, left) →
        Leaves (.opening content) body left

theorem Piece.Leaves.suffix {piece : Piece} {rest left : List Char} (h : piece.Leaves rest left) :
    left <:+ rest := by
  cases h with
  | leaf content => exact behindLeaf_suffix content rest
  | opening content hresult => exact (readBlock (some rest) rest).suffix hresult

namespace Piece

variable {piece : Piece} {left : List Char}

theorem past_of_readComment {body : List Char} (h : readComment body = .ok (piece, left)) :
    Past ('/' :: '*' :: body) left := by
  apply (past_cons '/' ('*' :: body)).trans_suffix
  exact (suffix_of_readComment h).trans (List.suffix_cons '*' body)

theorem past_of_readAtRule {input : List Char} (h : readAtRule input = .ok (piece, left)) :
    Past ('@' :: input) left := by
  apply (past_cons '@' input).trans_suffix
  exact (piece.suffix_behind left).trans (behind_suffix_of_readAtRule h)

theorem past_of_readStatement {nested : Bool} {input : List Char}
    (h : readStatement nested input = .ok (piece, left)) : Past input left :=
  ⟨(piece.suffix_behind left).trans (behind_suffix_of_readStatement h), length_readStatement h⟩

end Piece

end Source

/-! ## Advancing -/

/-- If a piece is found in front of `start`, all that belongs to it ends at a later
place. -/
def Consumes (source : String) (start : List Char)
    (found : Except Fault (Piece × List Char)) : Prop :=
  ∀ piece rest left, found = .ok (piece, rest) → piece.Leaves rest left → Later source start left

private theorem consumes_of_past {source : String} {start : List Char}
    {found : Except Fault (Piece × List Char)} (hstart : start <:+ source.toList)
    (h : ∀ piece rest, found = .ok (piece, rest) → Past start rest) :
    Consumes source start found := by
  intro piece rest left hfound hleaves
  exact ((h piece rest hfound).trans_suffix hleaves.suffix).later hstart

/-- Each reader of a node that succeeds in front of `start` takes at least one byte. -/
structure NodesAdvance (source : String) (start : List Char) : Prop where
  comment : ∀ body, start = '/' :: '*' :: body → Consumes source start (Piece.readComment body)
  atRule : ∀ input, start = '@' :: input → Consumes source start (Piece.readAtRule input)
  statement : ∀ nested, Consumes source start (Piece.readStatement nested start)

/-- How a loop advances that begins in front of `start`, at the given offset. -/
structure RoundsAdvance (source : String) (opened : Option (List Char)) (start : List Char)
    (offset : Nat) : Prop where
  head : (readBlock opened start).rounds.head?.map Round.start = some start
  /-- A round with which its loop does not return ends at a later place. -/
  next : ∀ round ∈ (readBlock opened start).rounds, ∀ left ∈ round.next?,
    Later source round.start left
  /-- A nested block begins at a later place than the round that it belongs to, and
  its rounds come right behind this one. -/
  inner : ∀ round ∈ (readBlock opened start).rounds, ∀ body ∈ round.inner?,
    Later source round.start body ∧
      round :: (readBlock (some body) body).rounds <:+: (readBlock opened start).rounds
  starts : (readBlock opened start).rounds.Pairwise
    fun earlier later => Later source earlier.start later.start
  countP_goesOn_le :
    (readBlock opened start).rounds.countP Round.goesOn ≤ source.utf8ByteSize - offset
  countP_hasText_le :
    (readBlock opened start).rounds.countP Round.hasText ≤ source.utf8ByteSize - offset
  /-- At most one round begins where nothing is left. -/
  length_le : (readBlock opened start).rounds.length ≤ source.utf8ByteSize - offset + 1

theorem nodesAdvance {source : String} {start : List Char} (hstart : start <:+ source.toList) :
    NodesAdvance source start where
  comment := by
    rintro body rfl
    exact consumes_of_past hstart fun _ _ => Piece.past_of_readComment
  atRule := by
    rintro input rfl
    exact consumes_of_past hstart fun _ _ => Piece.past_of_readAtRule
  statement := by
    intro nested
    exact consumes_of_past hstart fun _ _ => Piece.past_of_readStatement

theorem roundsAdvance {source : String} {start : List Char} {offset : Nat}
    (h : CutsAt source start offset) (opened : Option (List Char)) :
    RoundsAdvance source opened start offset := by
  have horderly := orderly_rounds opened start
  have hinside {round : Round} (hround : round ∈ (readBlock opened start).rounds) :
      round.start <:+ source.toList := (start_suffix hround).trans h.suffix
  have hbytes : source.utf8ByteSize - offset = byteLength start := by
    have := h.add_byteLength
    omega
  refine ⟨head?_rounds opened start, ?_, ?_, ?_, ?_, ?_, ?_⟩
  · intro round hround left hleft
    exact (horderly.next round hround left hleft).later (hinside hround)
  · intro round hround body hbody
    obtain ⟨hpast, hinfix⟩ := horderly.inner round hround body hbody
    exact ⟨hpast.later (hinside hround), hinfix⟩
  · apply horderly.starts.imp_of_mem
    intro earlier later hearlier _ hpast
    exact hpast.later (hinside hearlier)
  · rw [hbytes]
    exact countP_goesOn_le opened start
  · rw [hbytes]
    exact countP_hasText_le opened start
  · rw [hbytes]
    exact length_rounds_le opened start

private theorem parse_eq_readBlock (source : String) :
    parse source = ((readBlock none source.toList).result.map fun found =>
      Sheet.ofPieces found.1).mapError (.ofFault source.toList) := by
  rw [parse, outline_eq_readBlock]
  cases (readBlock none source.toList).result <;> rfl

/-- A sheet is parsed by the loop. In front of whatever is left at any place of the
source at which it may be cut, and whatever block is open, the readers of nodes and
the rounds of the loop advance. -/
theorem readBlock_advances (source : String) :
    (parse source = ((readBlock none source.toList).result.map fun found =>
      Sheet.ofPieces found.1).mapError (.ofFault source.toList)) ∧
    (∀ pos : String.Pos.Raw, pos.IsValid source → ∃ start, CutsAt source start pos.byteIdx) ∧
    ∀ start offset, CutsAt source start offset →
      NodesAdvance source start ∧ ∀ opened, RoundsAdvance source opened start offset :=
  ⟨parse_eq_readBlock source, fun _ => exists_cutsAt_of_isValid,
    fun _ _ hcut => ⟨nodesAdvance hcut.suffix, roundsAdvance hcut⟩⟩

/-- Behind a letter of two bytes stand a block without a head, whose brace ends the
at-rule in it, and a comment, a semicolon and an empty block. -/
def bareSource : String :=
  "é\x7b@m x\x7d/*\x7b*/;b\x7b\x7d"

theorem readBlock_advances_bareSource :
    (⟨2⟩ : String.Pos.Raw).IsValid bareSource ∧ (∃ start, CutsAt bareSource start 2) ∧
      CutsAt bareSource bareSource.toList.tail 2 ∧
      NodesAdvance bareSource bareSource.toList.tail ∧
      RoundsAdvance bareSource none bareSource.toList.tail 2 ∧
      ((readBlock none bareSource.toList.tail).rounds.map fun round =>
        (round.start.length, round.next?.map List.length)) =
        [(15, some 9), (14, some 10), (10, none), (9, some 4), (4, some 3), (3, some 0), (1, none),
          (0, none)] := by
  obtain ⟨-, hvalid, hadvances⟩ := readBlock_advances bareSource
  have hpos : (⟨2⟩ : String.Pos.Raw).IsValid bareSource := by decide +kernel
  have hsplit : bareSource.toList = ['é'] ++ bareSource.toList.tail := rfl
  have hcut : CutsAt bareSource bareSource.toList.tail 2 := cutsAt_of_append hsplit
  obtain ⟨hnodes, hrounds⟩ := hadvances _ _ hcut
  exact ⟨hpos, hvalid _ hpos, hcut, hnodes, hrounds none, by decide +kernel⟩

end Unnest
