/-!
# Comments

A comment goes up to the first closing mark behind its two opening characters.
-/

namespace Unnest.Source

/-- Cuts a text in front of and behind its first closing mark. -/
def cutComment : List Char → Option (List Char × List Char)
  | [] => none
  | c :: rest =>
      if c = '*' ∧ rest.head? = some '/' then some ([], rest.tail)
      else (cutComment rest).map fun (body, after) => (c :: body, after)

theorem cutComment_eq_append {input body after : List Char}
    (h : cutComment input = some (body, after)) : input = body ++ '*' :: '/' :: after := by
  induction input generalizing body with
  | nil => simp [cutComment] at h
  | cons c rest ih =>
      rw [cutComment] at h
      split at h
      · next hmark =>
          obtain ⟨hc, hrest⟩ := hmark
          cases rest with
          | nil => simp at hrest
          | cons d rest => simp_all
      · obtain ⟨⟨body', after'⟩, hcut, heq⟩ := Option.map_eq_some_iff.mp h
        cases heq
        simp [ih hcut]

end Unnest.Source
