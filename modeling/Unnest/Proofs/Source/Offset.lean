import Unnest.Proofs.Text.Boundary
import Unnest.Source.Parse

/-!
# Reading by offsets

The readers hold what is left of a text. The one of this module holds the stored
text and the offset of a byte in it, which it moves on by the sizes of the
characters and marks that it has seen. All it sees of the text are slices.

A loop is given the number of rounds that it may take, as fuel. A step gives nothing
if it asks for a slice that the text does not have, and also if it runs out of fuel.
So a step that gives something has done neither.
-/

namespace Unnest.Source.ByOffset

open Text

structure Blame where
  reason : Reason
  offset : Nat
deriving DecidableEq

abbrev Step (α : Type) := ExceptT Blame Option α

def refuse {α : Type} : Step α :=
  ExceptT.lift none

/-! ## Looking -/

def slice (source : String) (first last : Nat) : Step String :=
  ExceptT.lift (slice? source first last)

def rest (source : String) (pos : Nat) : Step String :=
  slice source pos source.utf8ByteSize

def peek (source : String) (pos : Nat) : Step (Option Char) := do
  return (← rest source pos).toList.head?

def opensComment (source : String) (pos : Nat) : Step Bool := do
  return ['/', '*'].isPrefixOf (← rest source pos).toList

def skipWhile (skips : Char → Bool) (source : String) : (fuel pos : Nat) → Step Nat
  | 0, _ => refuse
  | fuel + 1, pos => do
      match ← peek source pos with
      | none => return pos
      | some c => if skips c then skipWhile skips source fuel (pos + c.utf8Size) else return pos

/-! ## Marks that come in pairs -/

/-- The offset of the mark that closes the comment opened at `start`. -/
def commentEnd (source : String) (start : Nat) : Step Nat := do
  match cutComment (← rest source (start + 2)).toList with
  | none => throw ⟨.unclosedComment, start⟩
  | some (body, _) => return start + 2 + byteLength body

/-- The number of bytes in front of the quote that closes a string, `index` of them
being seen already. -/
def closingQuote? (quote : Char) : (escaped : Bool) → (index : Nat) → List Char → Option Nat
  | _, _, [] => none
  | true, index, c :: rest => closingQuote? quote false (index + c.utf8Size) rest
  | false, index, c :: rest =>
      if c = '\\' then closingQuote? quote true (index + c.utf8Size) rest
      else if c = quote then some index
      else if c = '\n' then none
      else closingQuote? quote false (index + c.utf8Size) rest

/-- The string with its quotes that is opened at `start`, and the offset behind it. -/
def quoted (source : String) (quote : Char) (start : Nat) : Step (String × Nat) := do
  match closingQuote? quote false 0 (← rest source (start + 1)).toList with
  | none => throw ⟨.unclosedString, start⟩
  | some index =>
      let stop := start + 1 + index + 1
      return (← slice source start stop, stop)

/-! ## Declarations -/

/-- The offset of the colon that cuts a declaration's head, which has the text given
from the offset `index` on. -/
def colonIndex? (quote : Option Char) (depth index : Nat) : List Char → Option Nat
  | [] => none
  | c :: rest =>
      match quote with
      | some q => colonIndex? (if c = q then none else some q) depth (index + c.utf8Size) rest
      | none =>
          if c = ':' ∧ depth = 0 then some index
          else
            colonIndex? (if isQuote c then some c else none) (depthAfter depth c)
              (index + c.utf8Size) rest

/-- The declaration with the given head. Its value is cut in front of the mark of
importance by the length of what is there in small letters. -/
def declaration (text : String) : Step (Option Content) := do
  match colonIndex? none 0 0 text.toList with
  | none => return none
  | some colon =>
      let property := trim (← slice text 0 colon).toList
      if property = [] then return none
      let value := trim (← rest text (colon + 1)).toList
      match (value.map Char.toLower).dropSuffix? Declaration.importantMark with
      | none => return some (.declaration (String.ofList property) (String.ofList value) false)
      | some lowered =>
          let unmarked ← slice (String.ofList value) 0 (byteLength lowered)
          return some (.declaration (String.ofList property)
            (String.ofList (trimEnd unmarked.toList)) true)

/-! ## Nodes -/

/-- Reads on a head of which `text` is known. Gives its text with the character that
ends it, if any, and the offset of this character. -/
def head (source : String) : (fuel : Nat) → (text : List Char) → (depth pos : Nat) →
    Step ((List Char × Option Char) × Nat)
  | 0, _, _, _ => refuse
  | fuel + 1, text, depth, pos => do
      match ← peek source pos with
      | none => return ((text, none), pos)
      | some c =>
          if depth = 0 ∧ Head.isTerminator c then return ((text, some c), pos)
          else if ← opensComment source pos then
            let stop ← commentEnd source pos
            head source fuel text depth (stop + 2)
          else if isQuote c then
            let (string, stop) ← quoted source c pos
            head source fuel (text ++ string.toList) depth stop
          else if c = '\\' then
            match ← peek source (pos + 1) with
            | none => head source fuel (text ++ [c]) depth (pos + 1)
            | some escaped =>
                head source fuel (text ++ [c, escaped]) depth (pos + 1 + escaped.utf8Size)
          else head source fuel (text ++ [c]) (depthAfter depth c) (pos + c.utf8Size)

/-- The piece whose head is ended by the given character, and the offset at which to go
on: that of the brace of a block, or else that behind a semicolon. -/
def behindHead (content : Bool → Content) (pos : Nat) : Option Char → Piece × Nat
  | some '{' => (.opening (content true), pos)
  | some ';' => (.leaf (content false), pos + 1)
  | _ => (.leaf (content false), pos)

def comment (source : String) (start : Nat) : Step (Piece × Nat) := do
  let stop ← commentEnd source start
  let text ← slice source (start + 2) stop
  return (.leaf (.comment (String.ofList (trim text.toList))), stop + 2)

def atRule (source : String) (fuel start : Nat) : Step (Piece × Nat) := do
  let stop ← skipWhile isNameChar source fuel (start + 1)
  let name ← slice source (start + 1) stop
  if name = "" then throw ⟨.atRuleWithoutName, start⟩
  let ((params, terminator), pos) ← head source fuel [] 0 stop
  return behindHead (.atRule name (String.ofList (trim params))) pos terminator

def statement (source : String) (nested : Bool) (fuel start : Nat) : Step (Piece × Nat) := do
  let ((text, terminator), pos) ← head source fuel [] 0 start
  if terminator = some '{' then return (.opening (.rule (String.ofList (trim text))), pos)
  if nested = false then throw ⟨.unknownWord, start⟩
  match ← declaration (String.ofList text) with
  | none => throw ⟨.unknownWord, start⟩
  | some content => return behindHead (fun _ => content) pos terminator

def node (source : String) (nested : Bool) (c : Char) (fuel pos : Nat) :
    Step (Piece × Nat) := do
  if c = '@' then atRule source fuel pos
  else if ← opensComment source pos then comment source pos
  else statement source nested fuel pos

/-! ## Blocks -/

/-- Reads a block, whose opening brace has the offset `opened`, or the whole sheet. Gives
its pieces and the offset behind it. -/
def block (source : String) : (opened : Option Nat) → (fuel pos : Nat) →
    Step (List Piece × Nat)
  | _, 0, _ => refuse
  | opened, fuel + 1, pos => do
      let pos ← skipWhile isBlank source (fuel + 1) pos
      match ← peek source pos with
      | none =>
          match opened with
          | none => return ([], pos)
          | some brace => throw ⟨.unclosedBlock, brace⟩
      | some c =>
          if c = '}' then
            if opened.isSome then return ([], pos + 1) else throw ⟨.unexpectedClosing, pos⟩
          else if c = ';' then block source opened fuel (pos + 1)
          else
            match ← node source opened.isSome c (fuel + 1) pos with
            | (.opening content, brace) =>
                let (inside, stop) ← block source (some brace) fuel (brace + 1)
                let (behind, last) ← block source opened fuel stop
                return (.opening content :: (inside ++ .closing :: behind), last)
            | (piece, stop) =>
                let (behind, last) ← block source opened fuel stop
                return (piece :: behind, last)

def syntaxError? (source : String) (blame : Blame) : Option SyntaxError := do
  let before ← slice? source 0 (min blame.offset source.utf8ByteSize)
  return ⟨blame.reason, { Position.after before.toList with offset := blame.offset }⟩

/-- Reads a stylesheet, if all slices are there and the bytes of the text, and one more,
are rounds enough for each loop. -/
def parse? (source : String) : Option (Except SyntaxError Sheet) := do
  match ← (block source none (source.utf8ByteSize + 1) 0).run with
  | .error blame => return .error (← syntaxError? source blame)
  | .ok (pieces, _) => return .ok (.ofPieces pieces)

end Unnest.Source.ByOffset
