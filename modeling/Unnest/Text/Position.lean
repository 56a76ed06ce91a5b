/-!
# Positions

A place in a text is known by the characters before it. Its offset counts the
bytes of their UTF-8 form, its line and column count from one, and the column
counts characters. `Position.ofRest` finds the place from the text that is
left there, which is what a reader has at hand.
-/

namespace Unnest.Text

/-- The bytes that the characters take in UTF-8. -/
def byteLength : List Char → Nat
  | [] => 0
  | c :: rest => c.utf8Size + byteLength rest

@[simp] theorem byteLength_nil : byteLength [] = 0 := rfl

@[simp] theorem byteLength_cons (c : Char) (rest : List Char) :
    byteLength (c :: rest) = c.utf8Size + byteLength rest := rfl

@[simp] theorem byteLength_append (before after : List Char) :
    byteLength (before ++ after) = byteLength before + byteLength after := by
  induction before with
  | nil => simp
  | cons c before ih => simp [ih, Nat.add_assoc]

theorem length_le_byteLength (text : List Char) : text.length ≤ byteLength text := by
  induction text with
  | nil => simp
  | cons c rest ih =>
      have := c.utf8Size_pos
      simp only [List.length_cons, byteLength_cons]
      omega

def lastLine (text : List Char) : List Char :=
  (text.reverse.takeWhile (· != '\n')).reverse

theorem newline_not_mem_lastLine (text : List Char) : '\n' ∉ lastLine text := by
  intro h
  have h : '\n' ∈ text.reverse.takeWhile (· != '\n') := by simpa [lastLine] using h
  have := List.all_eq_true.mp List.all_takeWhile _ h
  simp at this

structure Position where
  offset : Nat
  line : Nat
  column : Nat
deriving DecidableEq

namespace Position

def after (before : List Char) : Position where
  offset := byteLength before
  line := before.count '\n' + 1
  column := (lastLine before).length + 1

/-- The place in `source` where `rest` is what is left of it. -/
def ofRest (source rest : List Char) : Position :=
  after (source.take (source.length - rest.length))

@[simp] theorem ofRest_append (before rest : List Char) :
    ofRest (before ++ rest) rest = after before := by
  simp [ofRest]

end Position

end Unnest.Text
