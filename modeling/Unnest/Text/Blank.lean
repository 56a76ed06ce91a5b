import Unnest.Text.Ranges

/-!
# Blanks

Blanks are the characters with the Unicode property `White_Space`. They
separate the parts of a stylesheet and are trimmed from every stored text.
-/

namespace Unnest.Text

/-- The code points with the property `White_Space`. -/
def blankRanges : Ranges :=
  [(0x09, 0x0D), (0x20, 0x20), (0x85, 0x85), (0xA0, 0xA0), (0x1680, 0x1680),
   (0x2000, 0x200A), (0x2028, 0x2029), (0x202F, 0x202F), (0x205F, 0x205F),
   (0x3000, 0x3000)]

def isBlank (c : Char) : Bool :=
  blankRanges.contains c.toNat

theorem blankRanges_ascending : blankRanges.ascending = true := by decide

theorem isBlank_iff {c : Char} :
    isBlank c = true ↔ ∃ range ∈ blankRanges, range.1 ≤ c.toNat ∧ c.toNat ≤ range.2 :=
  Ranges.contains_iff blankRanges_ascending

def trimStart (text : List Char) : List Char :=
  text.dropWhile isBlank

def trimEnd : List Char → List Char
  | [] => []
  | c :: rest =>
      match trimEnd rest with
      | [] => if isBlank c then [] else [c]
      | kept => c :: kept

def trim (text : List Char) : List Char :=
  trimEnd (trimStart text)

def Trimmed (text : List Char) : Prop :=
  (∀ c, text.head? = some c → isBlank c = false) ∧
    ∀ c, text.getLast? = some c → isBlank c = false

@[simp] theorem trimEnd_nil : trimEnd [] = [] := rfl

@[simp] theorem trim_nil : trim [] = [] := rfl

theorem length_trimStart_le (text : List Char) : (trimStart text).length ≤ text.length :=
  (List.dropWhile_suffix isBlank).length_le

theorem trimStart_head {text : List Char} {c : Char} (h : (trimStart text).head? = some c) :
    isBlank c = false := by
  have := List.head?_dropWhile_not isBlank text
  simp_all [trimStart]

theorem trimEnd_append_blanks (text : List Char) :
    ∃ blanks, trimEnd text ++ blanks = text ∧ ∀ c ∈ blanks, isBlank c = true := by
  induction text with
  | nil => exact ⟨[], rfl, by simp⟩
  | cons c rest ih =>
      obtain ⟨blanks, hrest, hblank⟩ := ih
      cases hkept : trimEnd rest with
      | nil =>
          rw [hkept, List.nil_append] at hrest
          subst hrest
          by_cases hc : isBlank c = true
          · exact ⟨c :: blanks, by simp [trimEnd, hkept, hc], by simp_all⟩
          · exact ⟨blanks, by simp [trimEnd, hkept, hc], hblank⟩
      | cons d kept =>
          refine ⟨blanks, ?_, hblank⟩
          rw [hkept] at hrest
          rw [trimEnd, hkept]
          exact congrArg (c :: ·) hrest

theorem trimEnd_getLast {text : List Char} {c : Char}
    (h : (trimEnd text).getLast? = some c) : isBlank c = false := by
  induction text with
  | nil => simp at h
  | cons d rest ih =>
      cases hkept : trimEnd rest with
      | nil =>
          by_cases hd : isBlank d = true
          · simp [trimEnd, hkept, hd] at h
          · simp_all [trimEnd]
      | cons e kept =>
          rw [hkept] at ih
          simp only [trimEnd, hkept, List.getLast?_cons_cons] at h
          exact ih h

theorem trimEnd_head?_of_ne_nil {text : List Char} (h : trimEnd text ≠ []) :
    (trimEnd text).head? = text.head? := by
  obtain ⟨blanks, hsplit, _⟩ := trimEnd_append_blanks text
  conv => rhs; rw [← hsplit]
  cases hkept : trimEnd text with
  | nil => exact absurd hkept h
  | cons c kept => rfl

theorem trimmed_trim (text : List Char) : Trimmed (trim text) := by
  constructor
  · intro c hc
    have hne : trimEnd (trimStart text) ≠ [] := by
      intro hnil
      simp [trim, hnil] at hc
    rw [trim, trimEnd_head?_of_ne_nil hne] at hc
    exact trimStart_head hc
  · intro c hc
    exact trimEnd_getLast hc

theorem length_trimEnd_le (text : List Char) : (trimEnd text).length ≤ text.length := by
  obtain ⟨blanks, hsplit, _⟩ := trimEnd_append_blanks text
  conv => rhs; rw [← hsplit]
  simp

theorem length_trim_le (text : List Char) : (trim text).length ≤ text.length :=
  Nat.le_trans (length_trimEnd_le _) (length_trimStart_le _)

end Unnest.Text
