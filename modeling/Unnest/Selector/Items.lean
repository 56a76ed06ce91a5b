import Unnest.Text.Blank
import Unnest.Text.Bracket

/-!
# Selector lists

A rule's selector is a list of items with commas between them. A comma inside
brackets or a string, or behind a backslash, belongs to its item. Items are
trimmed, and empty ones do not count.

`Scan.step` says what a character does to the state of the scan, and `cut` cuts
where a comma separates.
-/

namespace Unnest.Selector

open Text

structure Scan where
  /-- The next character stands behind a backslash. -/
  escaped : Bool := false
  /-- The quote that closes the string around the next character. -/
  quote : Option Char := none
  depth : Nat := 0
deriving DecidableEq

namespace Scan

def step (scan : Scan) (c : Char) : Scan :=
  if scan.escaped then { scan with escaped := false }
  else if c = '\\' then { scan with escaped := true }
  else
    match scan.quote with
    | some q => if c = q then { scan with quote := none } else scan
    | none =>
        if isQuote c then { scan with quote := some c }
        else { scan with depth := depthAfter scan.depth c }

def after (scan : Scan) (text : List Char) : Scan :=
  text.foldl step scan

def separates (scan : Scan) (c : Char) : Bool :=
  c == ',' && !scan.escaped && scan.quote == none && scan.depth == 0

@[simp] theorem after_nil (scan : Scan) : scan.after [] = scan := rfl

@[simp] theorem after_cons (scan : Scan) (c : Char) (rest : List Char) :
    scan.after (c :: rest) = (scan.step c).after rest := rfl

@[simp] theorem after_append (scan : Scan) (before rest : List Char) :
    scan.after (before ++ rest) = (scan.after before).after rest :=
  List.foldl_append

end Scan

/-- Whether the scan of a text ends where it began: outside brackets, strings
and escapes. -/
def isClosed (text : List Char) : Bool :=
  ({} : Scan).after text == {}

def cut (scan : Scan) : List Char → List Char × List (List Char)
  | [] => ([], [])
  | c :: rest =>
      let (first, others) := cut (scan.step c) rest
      if scan.separates c then ([], first :: others) else (c :: first, others)

def segments (text : List Char) : List (List Char) :=
  (cut {} text).1 :: (cut {} text).2

def items (selector : String) : List String :=
  (((segments selector.toList).map trim).filter (· ≠ [])).map String.ofList

theorem mem_items {selector item : String} :
    item ∈ items selector ↔
      ∃ segment ∈ segments selector.toList, trim segment ≠ [] ∧
        item = String.ofList (trim segment) := by
  simp only [items, ne_eq, decide_not, List.mem_map, List.mem_filter, Bool.not_eq_true',
    decide_eq_false_iff_not]
  constructor
  · rintro ⟨_, ⟨⟨segment, hmem, rfl⟩, hne⟩, rfl⟩
    exact ⟨segment, hmem, hne, rfl⟩
  · rintro ⟨segment, hmem, hne, rfl⟩
    exact ⟨_, ⟨⟨segment, hmem, rfl⟩, hne⟩, rfl⟩

theorem trimmed_of_mem_items {selector item : String} (h : item ∈ items selector) :
    Trimmed item.toList := by
  obtain ⟨segment, _, _, rfl⟩ := mem_items.mp h
  simpa using trimmed_trim segment

theorem ne_empty_of_mem_items {selector item : String} (h : item ∈ items selector) :
    item ≠ "" := by
  obtain ⟨segment, _, hne, rfl⟩ := mem_items.mp h
  intro hnil
  apply hne
  simpa using congrArg String.toList hnil

end Unnest.Selector
