import Unnest.Proofs.Source.Block
import Unnest.Proofs.Source.DeclarationText
import Unnest.Proofs.Source.Leap

/-!
# Offsets follow what is left

Where a reader holds what is left of the text, the reader by offsets holds the
offset at which this begins. That is always an offset at which the stored text may
be cut, so no slice is refused. `parse?_eq` puts this together for all steps: read
by offsets, a stylesheet gives what it gives otherwise.
-/

namespace Unnest.Source.ByOffset

open Text

/-- The step gives what a reader finds. In place of what the reader leaves or blames
it has the offset at which this begins. -/
def Follows {α : Type} (source : String) (step : Step (α × Nat)) :
    Except Fault (α × List Char) → Prop
  | .error fault =>
      ∃ offset, CutsAt source fault.rest offset ∧ step = throw ⟨fault.reason, offset⟩
  | .ok (a, left) => ∃ stop, CutsAt source left stop ∧ step = pure (a, stop)

theorem Follows.map {α β : Type} {source : String} {step : Step (α × Nat)}
    {found : Except Fault (α × List Char)} (h : Follows source step found) (f : α → β) :
    Follows source (do
        let (a, stop) ← step
        return (f a, stop))
      (found.map fun (a, left) => (f a, left)) := by
  cases found with
  | error fault =>
      obtain ⟨offset, hoffset, rfl⟩ := h
      exact ⟨offset, hoffset, rfl⟩
  | ok found =>
      obtain ⟨stop, hstop, rfl⟩ := h
      exact ⟨stop, hstop, rfl⟩

variable {source : String} {left : List Char} {pos : Nat}

theorem cutsAt_start (source : String) : CutsAt source source.toList 0 :=
  cutsAt_of_append (List.nil_append _).symm

/-! ## Looking -/

theorem rest_eq (h : CutsAt source left pos) : rest source pos = pure (String.ofList left) := by
  rw [rest, slice, h.slice?_rest]
  rfl

theorem peek_eq (h : CutsAt source left pos) : peek source pos = pure left.head? := by
  rw [peek, rest_eq h, pure_bind, String.toList_ofList]

theorem slice_eq {middle : List Char} (h : CutsAt source (middle ++ left) pos) :
    slice source pos (pos + byteLength middle) = pure (String.ofList middle) := by
  rw [slice, h.slice?_eq]
  rfl

theorem opensComment_eq {c : Char} (h : CutsAt source (c :: left) pos) :
    opensComment source pos = pure (Head.opensComment c left) := by
  have hmark : ['/', '*'].isPrefixOf (c :: left) = Head.opensComment c left := by
    cases left <;> simp [Head.opensComment, List.isPrefixOf, BEq.comm (a := c), BEq.comm (a := '*')]
  rw [opensComment, rest_eq h, pure_bind, String.toList_ofList]
  exact congrArg pure hmark

theorem skipWhile_eq (skips : Char → Bool) {fuel : Nat} (hfuel : left.length < fuel)
    (h : CutsAt source left pos) :
    skipWhile skips source fuel pos = pure (pos + byteLength (left.takeWhile skips)) := by
  induction fuel generalizing left pos with
  | zero => exact absurd hfuel (Nat.not_lt_zero _)
  | succ fuel ih =>
      cases left with
      | nil =>
          rw [skipWhile, peek_eq h, pure_bind]
          rfl
      | cons c left =>
          rw [skipWhile, peek_eq h, pure_bind]
          simp only [List.head?_cons]
          by_cases hc : skips c = true
          · rw [if_pos hc, ih (Nat.lt_of_succ_lt_succ hfuel) h.cons,
              List.takeWhile_cons_of_pos hc, byteLength_cons, Nat.add_assoc]
          · rw [if_neg hc, List.takeWhile_cons_of_neg hc]
            rfl

theorem cutsAt_dropWhile (skips : Char → Bool) (h : CutsAt source left pos) :
    CutsAt source (left.dropWhile skips) (pos + byteLength (left.takeWhile skips)) :=
  CutsAt.append _ (by rwa [List.takeWhile_append_dropWhile])

/-! ## Heads -/

private theorem commentEnd_eq {body : List Char} (h : CutsAt source ('/' :: '*' :: body) pos) :
    commentEnd source pos =
      match cutComment body with
      | none => throw ⟨.unclosedComment, pos⟩
      | some (text, _) => pure (pos + 2 + byteLength text) := by
  have hbody : CutsAt source body (pos + 2) := h.append ['/', '*']
  have hstep := commentEnd.eq_1 source pos
  rw [rest_eq hbody, pure_bind, String.toList_ofList] at hstep
  exact hstep

private theorem quoted_of_none {quote : Char} (hquote : isQuote quote = true)
    (h : CutsAt source (quote :: left) pos) (hnone : closingQuote? quote false 0 left = none) :
    quoted source quote pos = throw ⟨.unclosedString, pos⟩ := by
  have hleft := h.cons
  rw [utf8Size_of_isQuote hquote] at hleft
  rw [quoted, rest_eq hleft, pure_bind, String.toList_ofList, hnone]

private theorem quoted_of_some {quote : Char} {body after : List Char}
    (hquote : isQuote quote = true) (h : CutsAt source (quote :: (body ++ quote :: after)) pos)
    (hsome : closingQuote? quote false 0 (body ++ quote :: after) = some (byteLength body)) :
    ∃ stop, CutsAt source after stop ∧
      quoted source quote pos = pure (String.ofList (quote :: (body ++ [quote])), stop) := by
  have hsize := utf8Size_of_isQuote hquote
  have hleft := h.cons
  rw [hsize] at hleft
  have hstring : CutsAt source (quote :: (body ++ [quote]) ++ after) pos := by
    rw [List.cons_append, List.append_assoc]
    exact h
  have hstop : pos + byteLength (quote :: (body ++ [quote])) = pos + 1 + byteLength body + 1 := by
    rw [byteLength_cons, byteLength_append, byteLength_cons, byteLength_nil, hsize]
    omega
  have hslice := slice_eq hstring
  rw [hstop] at hslice
  refine ⟨_, hstop ▸ hstring.append _, ?_⟩
  rw [quoted, rest_eq hleft, pure_bind, String.toList_ofList, hsome]
  simp only [hslice, pure_bind]

/-- What a head gives: its text with the character that ends it, and what is left. -/
def ended (found : Except Fault (List Char × List Char)) :
    Except Fault ((List Char × Option Char) × List Char) :=
  found.map fun (text, left) => ((text, left.head?), left)

/-- How both readers of a head go on from one place: they have come to the end, or they
leap to another place with the same text. -/
inductive Leaps (source : String) (left : List Char) (pos fuel : Nat) (text : List Char)
    (depth : Nat) : Prop
  | done :
      Follows source (head source (fuel + 1) text depth pos)
        (ended (Head.behind text (Head.readFrom ⟨.plain, depth⟩ left))) →
          Leaps source left pos fuel text depth
  | leap {kept after : List Char} {depth' stop : Nat} :
      after.length < left.length → CutsAt source after stop →
        head source (fuel + 1) text depth pos = head source fuel (text ++ kept) depth' stop →
          Head.readFrom ⟨.plain, depth⟩ left =
            Head.behind kept (Head.readFrom ⟨.plain, depth'⟩ after) →
              Leaps source left pos fuel text depth

private theorem head_eq_of_not_ended {c : Char} (fuel : Nat) (text : List Char) (depth : Nat)
    (h : CutsAt source (c :: left) pos)
    (hends : ¬ (depth = 0 ∧ Head.isTerminator c = true)) :
    head source (fuel + 1) text depth pos =
      if Head.opensComment c left = true then do
        let stop ← commentEnd source pos
        head source fuel text depth (stop + 2)
      else if isQuote c = true then do
        let (string, stop) ← quoted source c pos
        head source fuel (text ++ string.toList) depth stop
      else if c = '\\' then do
        match ← peek source (pos + 1) with
        | none => head source fuel (text ++ [c]) depth (pos + 1)
        | some escaped =>
            head source fuel (text ++ [c, escaped]) depth (pos + 1 + escaped.utf8Size)
      else head source fuel (text ++ [c]) (depthAfter depth c) (pos + c.utf8Size) := by
  have hstep := head.eq_2 source text depth pos fuel
  rw [peek_eq h, pure_bind] at hstep
  simp only [List.head?_cons] at hstep
  rw [if_neg hends, opensComment_eq h, pure_bind] at hstep
  exact hstep

section

variable (fuel : Nat)

private theorem leaps_nil (h : CutsAt source [] pos) (text : List Char) (depth : Nat) :
    Leaps source [] pos fuel text depth := by
  refine .done ⟨pos, h, ?_⟩
  rw [head, peek_eq h, pure_bind]
  simp

private theorem leaps_terminator {c : Char} (h : CutsAt source (c :: left) pos)
    (hc : Head.isTerminator c = true) (text : List Char) :
    Leaps source (c :: left) pos fuel text 0 := by
  refine .done ?_
  rw [Head.readFrom_terminator hc, head, peek_eq h, pure_bind]
  simp only [List.head?_cons, hc]
  exact ⟨pos, h, by simp⟩

private theorem leaps_comment {body : List Char} (h : CutsAt source ('/' :: '*' :: body) pos)
    (text : List Char) (depth : Nat) : Leaps source ('/' :: '*' :: body) pos fuel text depth := by
  have hhead := head_eq_of_not_ended fuel text depth h (by simp [Head.isTerminator])
  have hopens : Head.opensComment '/' ('*' :: body) = true := rfl
  rw [if_pos hopens, commentEnd_eq h] at hhead
  cases hcut : cutComment body with
  | none =>
      refine .done ?_
      rw [hhead, Head.readFrom_opensComment, hcut]
      exact ⟨pos, h, rfl⟩
  | some parts =>
      obtain ⟨comment, after⟩ := parts
      have hread : Head.readFrom ⟨.plain, depth⟩ ('/' :: '*' :: body) =
          Head.behind [] (Head.readFrom ⟨.plain, depth⟩ after) := by
        rw [Head.readFrom_opensComment, hcut, Head.behind_nil]
      rw [hcut] at hhead
      rw [cutComment_eq_append hcut] at h hread ⊢
      have hafter : CutsAt source after _ :=
        ((h.append ['/', '*']).append comment).append ['*', '/']
      refine .leap ?_ hafter (by rwa [List.append_nil]) hread
      simp only [List.length_cons, List.length_append]
      omega

private theorem leaps_quote {quote : Char} (h : CutsAt source (quote :: left) pos)
    (hquote : isQuote quote = true) (text : List Char) (depth : Nat) :
    Leaps source (quote :: left) pos fuel text depth := by
  have hends : ¬ (depth = 0 ∧ Head.isTerminator quote = true) := by
    simp [Head.isTerminator_of_isQuote hquote]
  have hhead := head_eq_of_not_ended fuel text depth h hends
  rw [Head.opensComment_of_isQuote hquote, if_neg Bool.false_ne_true, if_pos hquote] at hhead
  rcases Head.cases_readFrom_quote depth hquote left with
    ⟨hnone, hread⟩ | ⟨body, after, rfl, hsome, hread⟩
  · refine .done ?_
    rw [hhead, quoted_of_none hquote h hnone, hread]
    exact ⟨pos, h, rfl⟩
  · obtain ⟨stop, hafter, hstring⟩ := quoted_of_some hquote h hsome
    rw [hstring, pure_bind] at hhead
    simp only [String.toList_ofList] at hhead
    refine .leap ?_ hafter hhead hread
    simp only [List.length_cons, List.length_append]
    omega

private theorem leaps_backslash (h : CutsAt source ('\\' :: left) pos) (text : List Char)
    (depth : Nat) :
    Leaps source ('\\' :: left) pos fuel text depth := by
  have hhead := head_eq_of_not_ended fuel text depth h (by simp [Head.isTerminator])
  have hopens : Head.opensComment '\\' left = false := rfl
  have hquote : isQuote '\\' = false := rfl
  have hleft : CutsAt source left (pos + 1) := h.cons
  rw [hopens, if_neg Bool.false_ne_true, hquote, if_neg Bool.false_ne_true, if_pos rfl,
    peek_eq hleft, pure_bind] at hhead
  cases left with
  | nil =>
      have hread : Head.readFrom ⟨.plain, depth⟩ ['\\'] =
          Head.behind ['\\'] (Head.readFrom ⟨.plain, depth⟩ []) := Head.readFrom_backslash depth
      exact .leap (by simp) hleft hhead hread
  | cons escaped left =>
      refine .leap ?_ hleft.cons hhead (Head.readFrom_escape depth escaped left)
      simp only [List.length_cons]
      omega

private theorem leaps_other {c : Char} {depth : Nat} (h : CutsAt source (c :: left) pos)
    (hends : ¬ (depth = 0 ∧ Head.isTerminator c = true)) (hopens : Head.opensComment c left = false)
    (hquote : isQuote c = false) (hescape : c ≠ '\\') (text : List Char) :
    Leaps source (c :: left) pos fuel text depth := by
  have hhead := head_eq_of_not_ended fuel text depth h hends
  rw [hopens, if_neg Bool.false_ne_true, hquote, if_neg Bool.false_ne_true, if_neg hescape] at hhead
  exact .leap (by simp) h.cons hhead (Head.readFrom_other hends hopens hquote hescape)

theorem leaps (h : CutsAt source left pos) (text : List Char) (depth : Nat) :
    Leaps source left pos fuel text depth := by
  cases left with
  | nil => exact leaps_nil fuel h text depth
  | cons c left =>
      by_cases hends : depth = 0 ∧ Head.isTerminator c = true
      · obtain ⟨rfl, hc⟩ := hends
        exact leaps_terminator fuel h hc text
      · cases hopens : Head.opensComment c left with
        | true =>
            simp only [Head.opensComment, Bool.and_eq_true, beq_iff_eq] at hopens
            obtain ⟨rfl, hstar⟩ := hopens
            obtain ⟨body, rfl⟩ := List.head?_eq_some_iff.mp hstar
            exact leaps_comment fuel h text depth
        | false =>
            cases hquote : isQuote c with
            | true => exact leaps_quote fuel h hquote text depth
            | false =>
                by_cases hescape : c = '\\'
                · subst hescape
                  exact leaps_backslash fuel h text depth
                · exact leaps_other fuel h hends hopens hquote hescape text

end

theorem follows_head {fuel : Nat} (hfuel : left.length < fuel) (h : CutsAt source left pos)
    (text : List Char) (depth : Nat) :
    Follows source (head source fuel text depth pos)
      (ended (Head.behind text (Head.readFrom ⟨.plain, depth⟩ left))) := by
  induction fuel generalizing left pos text depth with
  | zero => exact absurd hfuel (Nat.not_lt_zero _)
  | succ fuel ih =>
      rcases leaps fuel h text depth with hdone | ⟨hshorter, hafter, hhead, hread⟩
      · exact hdone
      · rw [hhead, hread, Head.behind_behind]
        exact ih (Nat.lt_of_lt_of_le hshorter (Nat.le_of_lt_succ hfuel)) hafter _ _

theorem cases_head {fuel : Nat} (hfuel : left.length < fuel) (h : CutsAt source left pos) :
    (∃ fault offset, Head.read left = .error fault ∧ CutsAt source fault.rest offset ∧
        head source fuel [] 0 pos = throw ⟨fault.reason, offset⟩) ∨
      ∃ text behind stop, Head.read left = .ok (text, behind) ∧ CutsAt source behind stop ∧
        head source fuel [] 0 pos = pure ((text, behind.head?), stop) := by
  have hfollows := follows_head hfuel h [] 0
  rw [Head.behind_nil] at hfollows
  cases hread : Head.read left with
  | error fault =>
      rw [show Head.readFrom ⟨.plain, 0⟩ left = _ from hread] at hfollows
      obtain ⟨offset, hoffset, hstep⟩ := hfollows
      exact .inl ⟨fault, offset, rfl, hoffset, hstep⟩
  | ok parts =>
      obtain ⟨text, behind⟩ := parts
      rw [show Head.readFrom ⟨.plain, 0⟩ left = _ from hread] at hfollows
      obtain ⟨stop, hstop, hstep⟩ := hfollows
      exact .inr ⟨text, behind, stop, rfl, hstop, hstep⟩

/-! ## Declarations -/

theorem colonIndex?_eq (quote : Option Char) (depth index : Nat) (text : List Char) :
    colonIndex? quote depth index text =
      (Declaration.cutAtColonFrom quote depth text).map
        fun (before, _) => index + byteLength before := by
  induction text generalizing quote depth index with
  | nil => rfl
  | cons c rest ih =>
      cases quote with
      | some q =>
          rw [colonIndex?, Declaration.cutAtColonFrom, ih, Option.map_map]
          refine congrArg (Option.map · _) (funext fun parts => ?_)
          exact Nat.add_assoc ..
      | none =>
          rw [colonIndex?, Declaration.cutAtColonFrom]
          split
          · rfl
          · rw [ih, Option.map_map]
            refine congrArg (Option.map · _) (funext fun parts => ?_)
            exact Nat.add_assoc ..

/-- Capital letters and small ones take one byte each. -/
private theorem utf8Size_toLower (c : Char) : c.toLower.utf8Size = c.utf8Size := by
  unfold Char.toLower
  split
  · next hupper =>
      have hold : c.val ≤ 127 := UInt32.le_trans hupper.2 (by decide)
      have hnew : c.val + ('a'.val - 'A'.val) ≤ 127 := by
        have hle := UInt32.le_iff_toNat_le.mp hupper.2
        rw [UInt32.le_iff_toNat_le, UInt32.toNat_add]
        calc _ ≤ c.val.toNat + ('a'.val - 'A'.val).toNat := Nat.mod_le _ _
          _ ≤ 'Z'.val.toNat + ('a'.val - 'A'.val).toNat := Nat.add_le_add_right hle _
          _ ≤ 127 := by decide
      rw [Char.utf8Size_eq_one_iff.mpr hold]
      exact Char.utf8Size_eq_one_iff.mpr hnew
  · rfl

private theorem byteLength_map_toLower (text : List Char) :
    byteLength (text.map Char.toLower) = byteLength text := by
  induction text with
  | nil => rfl
  | cons c rest ih => rw [List.map_cons, byteLength_cons, byteLength_cons, utf8Size_toLower, ih]

private theorem dropSuffix?_importantMark (value : List Char) :
    (value.map Char.toLower).dropSuffix? Declaration.importantMark =
      if Declaration.isMarked value then
        some ((value.take (value.length - Declaration.importantMark.length)).map Char.toLower)
      else none := by
  rw [List.dropSuffix?, List.splitAt_eq, List.length_map, ← List.map_take, ← List.map_drop]
  rfl

/-- Cutting in front of the mark, found in small letters, cuts the value there. -/
private theorem slice_unmarked (value : List Char) (count : Nat) :
    slice (String.ofList value) 0 (byteLength ((value.take count).map Char.toLower)) =
      pure (String.ofList (value.take count)) := by
  have hcuts := cutsAt_start (String.ofList value)
  rw [String.toList_ofList, ← List.take_append_drop count value] at hcuts
  have hslice := slice_eq hcuts
  rwa [Nat.zero_add, List.take_append_drop, ← byteLength_map_toLower] at hslice

theorem declaration_eq (text : List Char) :
    declaration (String.ofList text) = pure (Declaration.read text) := by
  rw [declaration, String.toList_ofList, colonIndex?_eq, Declaration.read, Declaration.cutAtColon]
  cases hcut : Declaration.cutAtColonFrom none 0 text with
  | none => rfl
  | some parts =>
      obtain ⟨before, after⟩ := parts
      have hcuts := cutsAt_start (String.ofList text)
      rw [String.toList_ofList, Declaration.cutAtColonFrom_eq_append hcut] at hcuts
      have hproperty := slice_eq hcuts
      have hvalue := rest_eq (hcuts.append before).cons
      rw [← Declaration.cutAtColonFrom_eq_append hcut] at hproperty hvalue
      have hcolon : (':' : Char).utf8Size = 1 := rfl
      rw [hcolon] at hvalue
      simp only [Option.map_some, hproperty, hvalue, pure_bind, String.toList_ofList]
      by_cases hnil : trim before = []
      · rw [if_pos hnil, if_pos hnil]
      · rw [if_neg hnil, if_neg hnil, dropSuffix?_importantMark, Declaration.ofParts]
        by_cases hmark : Declaration.isMarked (trim after) = true
        · rw [if_pos hmark, if_pos hmark]
          simp only [slice_unmarked, pure_bind, String.toList_ofList]
          rfl
        · rw [if_neg hmark, if_neg hmark]

/-! ## Nodes -/

/-- The step gives the node that a round finds: with the offset of its brace if it has
a block, and otherwise with that of what is left. -/
def Finds (source : String) (step : Step (Piece × Nat)) : Found → Prop
  | .fails fault =>
      ∃ offset, CutsAt source fault.rest offset ∧ step = throw ⟨fault.reason, offset⟩
  | .closes _ => False
  | .passes pieces left =>
      ∃ content stop, pieces = [.leaf content] ∧ CutsAt source left stop ∧
        step = pure (.leaf content, stop)
  | .enters content body =>
      ∃ brace, CutsAt source ('\x7b' :: body) brace ∧ step = pure (.opening content, brace)

private theorem finds_comment {body : List Char} (h : CutsAt source ('/' :: '*' :: body) pos) :
    Finds source (comment source pos) (.ofNext (Piece.readComment body)) := by
  rw [comment, commentEnd_eq h, Piece.readComment]
  cases hcut : cutComment body with
  | none => exact ⟨pos, h, rfl⟩
  | some parts =>
      obtain ⟨text, after⟩ := parts
      rw [cutComment_eq_append hcut] at h
      have htext : CutsAt source (text ++ '*' :: '/' :: after) (pos + 2) :=
        h.append ['/', '*']
      refine ⟨.comment (String.ofList (trim text)), _, rfl,
        (htext.append text).append ['*', '/'], ?_⟩
      rw [pure_bind, slice_eq htext, pure_bind, String.toList_ofList]
      rfl

private theorem behindLeaf_semicolon {content : Content} (h : ∀ text, content ≠ .comment text)
    (left : List Char) : behindLeaf content (';' :: left) = left := by
  cases content with
  | comment text => exact absurd rfl (h text)
  | _ => rfl

private theorem behindLeaf_eq_self (content : Content) (h : left.head? ≠ some ';') :
    behindLeaf content left = left := by
  unfold behindLeaf
  split
  · rfl
  · exact absurd rfl h
  · rfl

def foundBehind (content : Bool → Content) : List Char → Found
  | '\x7b' :: body => .enters (content true) body
  | left => .passes [.leaf (content false)] (behindLeaf (content false) left)

private theorem finds_behindHead (content : Bool → Content) (h : CutsAt source left pos)
    (hcontent : ∀ text, content false ≠ .comment text) :
    Finds source (pure (behindHead content pos left.head?)) (foundBehind content left) := by
  cases left with
  | nil => exact ⟨content false, pos, rfl, by rwa [behindLeaf_eq_self _ (by simp)], rfl⟩
  | cons c left =>
      by_cases hbrace : c = '\x7b'
      · subst hbrace
        exact ⟨pos, h, rfl⟩
      · have hfound : foundBehind content (c :: left) =
            .passes [.leaf (content false)] (behindLeaf (content false) (c :: left)) := by
          unfold foundBehind
          split
          · next heq => exact absurd (List.cons.inj heq).1 hbrace
          · rfl
        rw [hfound]
        by_cases hsemicolon : c = ';'
        · subst hsemicolon
          rw [behindLeaf_semicolon hcontent]
          exact ⟨content false, pos + 1, rfl, h.cons, rfl⟩
        · rw [behindLeaf_eq_self _ (by simpa using hsemicolon)]
          refine ⟨content false, pos, rfl, h, ?_⟩
          simp [behindHead, hbrace, hsemicolon]

private theorem foundBehind_of_ne {content : Bool → Content} (h : left.head? ≠ some '\x7b') :
    foundBehind content left =
      .passes [.leaf (content false)] (behindLeaf (content false) left) := by
  unfold foundBehind
  split
  · exact absurd rfl h
  · rfl

private theorem ofNext_atRule (name params left : List Char) :
    Found.ofNext (.ok (Piece.atRule name params left)) =
      foundBehind (.atRule (String.ofList name) (String.ofList (trim params))) left := by
  unfold Piece.atRule
  split
  · rfl
  · next hbrace =>
      rw [foundBehind_of_ne]
      · rfl
      · intro hhead
        obtain ⟨body, rfl⟩ := List.head?_eq_some_iff.mp hhead
        exact hbrace body rfl

private theorem finds_atRule {fuel : Nat} (hfuel : left.length < fuel)
    (h : CutsAt source ('@' :: left) pos) :
    Finds source (atRule source fuel pos) (.ofNext (Piece.readAtRule left)) := by
  have hleft : CutsAt source left (pos + 1) := h.cons
  have hbehind : (left.dropWhile isNameChar).length < fuel :=
    Nat.lt_of_le_of_lt (List.dropWhile_suffix isNameChar).length_le hfuel
  have hslice : slice source (pos + 1) (pos + 1 + byteLength (left.takeWhile isNameChar)) =
      pure (String.ofList (left.takeWhile isNameChar)) := by
    rw [← List.takeWhile_append_dropWhile (p := isNameChar) (l := left)] at hleft
    exact slice_eq hleft
  rw [atRule, skipWhile_eq isNameChar hfuel hleft, pure_bind, hslice, pure_bind, Piece.readAtRule]
  dsimp only
  by_cases hnil : left.takeWhile isNameChar = []
  · rw [if_pos hnil, hnil]
    exact ⟨pos, h, rfl⟩
  · rw [if_neg hnil, if_neg (by simpa using hnil)]
    rcases cases_head hbehind (cutsAt_dropWhile isNameChar hleft) with
      ⟨fault, offset, hread, hoffset, hstep⟩ | ⟨params, behind, stop, hread, hstop, hstep⟩
    · rw [hread, hstep]
      exact ⟨offset, hoffset, rfl⟩
    · rw [hread, hstep]
      dsimp only
      rw [ofNext_atRule]
      exact finds_behindHead _ hstop fun text => Content.noConfusion

private theorem readStatement_of_ne {nested : Bool} {text behind : List Char}
    (hread : Head.read left = .ok (text, behind)) (hbrace : behind.head? ≠ some '\x7b') :
    Piece.readStatement nested left =
      match nested, Declaration.read text with
      | true, some content => .ok (.leaf content, behind)
      | _, _ => .error ⟨.unknownWord, left⟩ := by
  rw [Piece.readStatement, hread]
  split
  · next heq => cases heq
  · next heq =>
      cases heq
      exact absurd rfl hbrace
  · next heq =>
      cases heq
      cases nested <;> cases Declaration.read text <;> rfl

private theorem finds_statement {nested : Bool} {fuel : Nat} (hfuel : left.length < fuel)
    (h : CutsAt source left pos) :
    Finds source (statement source nested fuel pos)
      (.ofNext (Piece.readStatement nested left)) := by
  rw [statement]
  rcases cases_head hfuel h with
    ⟨fault, offset, hread, hoffset, hstep⟩ | ⟨text, behind, stop, hread, hstop, hstep⟩
  · rw [Piece.readStatement, hread, hstep]
    exact ⟨offset, hoffset, rfl⟩
  · rw [hstep, pure_bind]
    dsimp only
    by_cases hbrace : behind.head? = some '\x7b'
    · obtain ⟨body, rfl⟩ := List.head?_eq_some_iff.mp hbrace
      rw [Piece.readStatement, hread]
      exact ⟨stop, hstop, rfl⟩
    · rw [if_neg hbrace, readStatement_of_ne hread hbrace]
      cases nested with
      | false => exact ⟨pos, h, rfl⟩
      | true =>
          rw [if_neg Bool.noConfusion, declaration_eq, pure_bind]
          cases hdeclaration : Declaration.read text with
          | none => exact ⟨pos, h, rfl⟩
          | some content =>
              have hcontent : ∀ text, content ≠ .comment text := by
                obtain ⟨_, _, _, _, rfl, -⟩ := Declaration.cases_of_read hdeclaration
                exact fun _ => Content.noConfusion
              have hfinds := finds_behindHead (fun _ => content) hstop hcontent
              rwa [foundBehind_of_ne hbrace] at hfinds

theorem finds_node {c : Char} (nested : Bool) {fuel : Nat} (hfuel : left.length < fuel)
    (h : CutsAt source (c :: left) pos) (hclosing : c ≠ '\x7d') :
    Finds source (node source nested c (fuel + 1) pos) (.ofNext (Piece.next nested c left)) := by
  rw [node, Piece.next, if_neg hclosing]
  by_cases hat : c = '@'
  · subst hat
    rw [if_pos rfl, if_pos rfl]
    exact finds_atRule (Nat.lt_succ_of_lt hfuel) h
  · rw [if_neg hat, if_neg hat, opensComment_eq h, pure_bind]
    by_cases hopens : Head.opensComment c left = true
    · rw [if_pos hopens, if_pos hopens]
      simp only [Head.opensComment, Bool.and_eq_true, beq_iff_eq] at hopens
      obtain ⟨rfl, hstar⟩ := hopens
      obtain ⟨body, rfl⟩ := List.head?_eq_some_iff.mp hstar
      exact finds_comment h
    · rw [if_neg hopens, if_neg hopens]
      exact finds_statement (Nat.succ_lt_succ hfuel) h

/-! ## Blocks -/

def Opens (source : String) : Option (List Char) → Option Nat → Prop :=
  Option.Rel fun body brace => CutsAt source ('\x7b' :: body) brace

/-- How a block is read on from `pos`, given what the round finds there. -/
def GoesOn (source : String) (brace? : Option Nat) (fuel pos : Nat) : Found → Prop
  | .fails fault =>
      ∃ offset, CutsAt source fault.rest offset ∧
        block source brace? fuel pos = throw ⟨fault.reason, offset⟩
  | .closes left => ∃ stop, CutsAt source left stop ∧ block source brace? fuel pos = pure ([], stop)
  | .passes pieces left =>
      ∃ stop, CutsAt source left stop ∧ block source brace? fuel pos = do
        let (behind, last) ← block source brace? (fuel - 1) stop
        return (pieces ++ behind, last)
  | .enters content body =>
      ∃ brace, CutsAt source ('\x7b' :: body) brace ∧ block source brace? fuel pos = do
        let (inside, stop) ← block source (some brace) (fuel - 1) (brace + 1)
        let (behind, last) ← block source brace? (fuel - 1) stop
        return (.opening content :: (inside ++ .closing :: behind), last)

/-- A node is put in front of what stands beside it, with its block if it has one. -/
private theorem goesOn_of_finds {brace? : Option Nat} {fuel : Nat}
    {step : Step (Piece × Nat)} {found : Found} (hfinds : Finds source step found)
    (hblock : block source brace? (fuel + 1) pos = do
      match ← step with
      | (.opening content, brace) =>
          let (inside, stop) ← block source (some brace) fuel (brace + 1)
          let (behind, last) ← block source brace? fuel stop
          return (.opening content :: (inside ++ .closing :: behind), last)
      | (piece, stop) =>
          let (behind, last) ← block source brace? fuel stop
          return (piece :: behind, last)) :
    GoesOn source brace? (fuel + 1) pos found := by
  cases found with
  | fails fault =>
      obtain ⟨offset, hoffset, rfl⟩ := hfinds
      exact ⟨offset, hoffset, hblock⟩
  | closes left => exact hfinds.elim
  | passes pieces left =>
      obtain ⟨content, stop, rfl, hstop, rfl⟩ := hfinds
      rw [pure_bind] at hblock
      exact ⟨stop, hstop, hblock⟩
  | enters content body =>
      obtain ⟨brace, hbrace, rfl⟩ := hfinds
      rw [pure_bind] at hblock
      exact ⟨brace, hbrace, hblock⟩

theorem goesOn_look {opened : Option (List Char)} {brace? : Option Nat} {fuel : Nat}
    (hfuel : left.length < fuel) (h : CutsAt source left pos)
    (hopened : Opens source opened brace?) :
    GoesOn source brace? fuel pos (look opened left) := by
  obtain ⟨fuel, rfl⟩ := Nat.exists_eq_add_one_of_ne_zero (Nat.ne_zero_of_lt hfuel)
  have hskip := cutsAt_dropWhile isBlank h
  have hnested : brace?.isSome = opened.isSome := by cases hopened <;> rfl
  have hblock := block.eq_2 source brace? pos fuel
  rw [skipWhile_eq isBlank hfuel h, pure_bind, peek_eq hskip, pure_bind, hnested] at hblock
  have hbelow (c : Char) (rest : List Char) (hcons : left.dropWhile isBlank = c :: rest) :
      rest.length < fuel := by
    have hle := (List.dropWhile_suffix isBlank (l := left)).length_le
    rw [hcons, List.length_cons] at hle
    omega
  unfold look
  split
  · next hnil =>
      rw [hnil] at hskip hblock
      cases hopened with
      | none => exact ⟨_, hskip, hblock⟩
      | some hbrace => exact ⟨_, hbrace, hblock⟩
  · next c rest hcons =>
      rw [hcons] at hskip hblock
      by_cases hsemicolon : c = ';'
      · subst hsemicolon
        rw [if_pos rfl]
        exact ⟨_, hskip.cons, hblock.trans (bind_pure _).symm⟩
      · rw [if_neg hsemicolon]
        by_cases hclosing : c = '\x7d'
        · subst hclosing
          cases hopened with
          | none => exact ⟨_, hskip, hblock⟩
          | some hbrace => exact ⟨_, hskip.cons, hblock⟩
        · have hfinds := finds_node opened.isSome (hbelow c rest hcons) hskip hclosing
          simp only [List.head?_cons] at hblock
          rw [if_neg hclosing, if_neg hsemicolon] at hblock
          exact goesOn_of_finds hfinds hblock

private theorem length_lt_pred_of_past {fuel : Nat} {rest : List Char} (hfuel : left.length < fuel)
    (h : Past left rest) : rest.length < fuel - 1 :=
  Nat.lt_of_lt_of_le h.lt (Nat.le_sub_one_of_lt hfuel)

theorem follows_block {opened : Option (List Char)} {brace? : Option Nat} {fuel : Nat}
    (hfuel : left.length < fuel) (h : CutsAt source left pos)
    (hopened : Opens source opened brace?) :
    Follows source (block source brace? fuel pos) (readBlock opened left).result := by
  fun_induction readBlock opened left generalizing brace? fuel pos with
  | case1 opened left _ fault hlook =>
      have hround := goesOn_look hfuel h hopened
      rwa [hlook] at hround
  | case2 opened left _ behind hlook =>
      have hround := goesOn_look hfuel h hopened
      rwa [hlook] at hround
  | case3 opened left _ pieces behind hlook hbehind ih =>
      have hround := goesOn_look hfuel h hopened
      rw [hlook] at hround
      obtain ⟨stop, hstop, hstep⟩ := hround
      rw [hstep]
      exact (ih (length_lt_pred_of_past hfuel hbehind) hstop hopened).map (pieces ++ ·)
  | case4 opened left _ content body hlook hbody rounds fault _ hinner ih =>
      have hround := goesOn_look hfuel h hopened
      rw [hlook] at hround
      obtain ⟨brace, hbrace, hstep⟩ := hround
      have hbelow := ih (length_lt_pred_of_past hfuel hbody) hbrace.cons (.some hbrace)
      rw [hinner] at hbelow
      obtain ⟨offset, hoffset, hbelow⟩ := hbelow
      have hbelow : block source (some brace) (fuel - 1) (brace + 1) = _ := hbelow
      rw [hstep, hbelow]
      exact ⟨offset, hoffset, rfl⟩
  | case5 opened left _ content body hlook hbody rounds pieces behind _ hinner hbehind ih ih' =>
      have hround := goesOn_look hfuel h hopened
      rw [hlook] at hround
      obtain ⟨brace, hbrace, hstep⟩ := hround
      have hbelow := ih (length_lt_pred_of_past hfuel hbody) hbrace.cons (.some hbrace)
      rw [hinner] at hbelow
      obtain ⟨stop, hstop, hbelow⟩ := hbelow
      have hbelow : block source (some brace) (fuel - 1) (brace + 1) = _ := hbelow
      have hbeside := (ih' (length_lt_pred_of_past hfuel hbehind) hstop hopened).map
        (.opening content :: (pieces ++ [.closing]) ++ ·)
      rw [hstep, hbelow, pure_bind, BlockRun.result_behind]
      simpa only [List.cons_append, List.append_assoc, List.nil_append] using hbeside

/-! ## Stylesheets -/

private theorem syntaxError?_eq {fault : Fault} {offset : Nat}
    (h : CutsAt source fault.rest offset) :
    syntaxError? source ⟨fault.reason, offset⟩ = some (.ofFault source.toList fault) := by
  have hle : offset ≤ source.utf8ByteSize := by
    rw [← h.add_byteLength]
    exact Nat.le_add_right _ _
  obtain ⟨before, hsplit, rfl⟩ := h.exists_before
  have hslice : slice? source 0 (byteLength before) = some (String.ofList before) := by
    have hstart := cutsAt_start source
    rw [hsplit] at hstart
    simpa using hstart.slice?_eq
  rw [syntaxError?, Nat.min_eq_left hle, hslice, SyntaxError.ofFault, hsplit,
    Position.ofRest_append]
  simp only [Option.bind_eq_bind, Option.bind_some, String.toList_ofList]
  rfl

/-- Read by offsets, a stylesheet asks for no slice that the text does not have, comes
to an end, and gives the sheet or the error that it gives otherwise. -/
theorem parse?_eq (source : String) : parse? source = some (parse source) := by
  have hfuel : source.toList.length < source.utf8ByteSize + 1 := by
    rw [← byteLength_toList]
    exact Nat.lt_succ_of_le (length_le_byteLength _)
  have hfollows := follows_block hfuel (cutsAt_start source) Option.Rel.none
  rw [parse?, parse, outline_eq_readBlock]
  cases hresult : (readBlock none source.toList).result with
  | error fault =>
      rw [hresult] at hfollows
      obtain ⟨offset, hoffset, hstep⟩ := hfollows
      have hrun : (throw ⟨fault.reason, offset⟩ : Step (List Piece × Nat)).run =
          some (.error ⟨fault.reason, offset⟩) := rfl
      rw [hstep, hrun]
      simp only [Option.bind_eq_bind, Option.bind_some, syntaxError?_eq hoffset]
      rfl
  | ok found =>
      obtain ⟨pieces, left⟩ := found
      rw [hresult] at hfollows
      obtain ⟨stop, -, hstep⟩ := hfollows
      rw [hstep]
      rfl

end Unnest.Source.ByOffset
