/-!
# Code point ranges

A class of characters is given as a list of closed ranges of code points.
Tables are ascending, so that a look-up can stop at the first range that lies
above the code point; `contains_iff` says that nothing is missed by that.
-/

namespace Unnest.Text

/-- Closed ranges of code points, lowest first. -/
abbrev Ranges := List (Nat × Nat)

namespace Ranges

def contains : Ranges → Nat → Bool
  | [], _ => false
  | (low, high) :: rest, n => !(n < low) && (n ≤ high || contains rest n)

def ascending : Ranges → Bool
  | [] => true
  | [(low, high)] => low ≤ high
  | (low, high) :: (low', high') :: rest =>
      low ≤ high && high < low' && ascending ((low', high') :: rest)

theorem ascending_tail {range : Nat × Nat} {rest : Ranges}
    (h : ascending (range :: rest) = true) : ascending rest = true := by
  cases rest with
  | nil => rfl
  | cons next rest => simp_all [ascending]

private theorem lt_of_ascending {low high : Nat} {rest : Ranges}
    (h : ascending ((low, high) :: rest) = true) :
    ∀ range ∈ rest, low < range.1 := by
  induction rest generalizing low high with
  | nil => simp
  | cons next rest ih =>
      obtain ⟨low', high'⟩ := next
      have hfirst : low ≤ high ∧ high < low' := by simp_all [ascending]
      have hrest := ih (ascending_tail h)
      intro range hmem
      rcases List.mem_cons.mp hmem with rfl | hmem
      · exact Nat.lt_of_le_of_lt hfirst.1 hfirst.2
      · have := hrest range hmem
        omega

theorem contains_iff {table : Ranges} (h : table.ascending = true) {n : Nat} :
    table.contains n = true ↔ ∃ range ∈ table, range.1 ≤ n ∧ n ≤ range.2 := by
  induction table with
  | nil => simp [contains]
  | cons range rest ih =>
      obtain ⟨low, high⟩ := range
      have hlt := lt_of_ascending h
      have ih := ih (ascending_tail h)
      simp only [contains, Bool.and_eq_true, Bool.not_eq_true', decide_eq_false_iff_not,
        Nat.not_lt, Bool.or_eq_true, decide_eq_true_eq, ih, List.mem_cons,
        exists_eq_or_imp]
      constructor
      · rintro ⟨hlow, hhigh | hrest⟩
        · exact .inl ⟨hlow, hhigh⟩
        · exact .inr hrest
      · rintro (⟨hlow, hhigh⟩ | ⟨range, hmem, hrange⟩)
        · exact ⟨hlow, .inl hhigh⟩
        · have := hlt range hmem
          exact ⟨by omega, .inr ⟨range, hmem, hrange⟩⟩

end Ranges

end Unnest.Text
