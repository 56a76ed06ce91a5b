/-!
# Brackets and quotes

Selectors and declaration values may hold brackets and quoted strings, inside
of which separators lose their meaning. Round and square brackets are counted
together, and a closing bracket with no partner counts for nothing.
-/

namespace Unnest.Text

/-- The bracket depth behind the character `c`, from the depth before it. A depth is
a natural number; a count of 32 bits would differ from it only in a text with more
than 2 ^ 32 open brackets. -/
def depthAfter (depth : Nat) (c : Char) : Nat :=
  if c = '(' ∨ c = '[' then depth + 1
  else if c = ')' ∨ c = ']' then depth - 1
  else depth

/-- Characters that open a string and close it again. -/
def isQuote (c : Char) : Bool :=
  c == '"' || c == '\''

theorem depthAfter_of_isQuote {depth : Nat} {c : Char} (h : isQuote c = true) :
    depthAfter depth c = depth := by
  simp only [isQuote, Bool.or_eq_true, beq_iff_eq] at h
  rcases h with rfl | rfl <;> rfl

theorem ne_of_isQuote {quote c : Char} (hquote : isQuote quote = true) (hc : isQuote c = false) :
    quote ≠ c := by
  rintro rfl
  rw [hc] at hquote
  cases hquote

theorem utf8Size_of_isQuote {c : Char} (h : isQuote c = true) : c.utf8Size = 1 := by
  simp only [isQuote, Bool.or_eq_true, beq_iff_eq] at h
  rcases h with rfl | rfl <;> rfl

end Unnest.Text
