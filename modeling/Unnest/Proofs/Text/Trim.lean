import Mathlib.Data.List.TakeWhile
import Unnest.Text.Blank

/-!
# Trimming

A text is its trimmed part between blanks, and trimming a trimmed text changes
nothing. No character that means something to a reader is a blank.
-/

namespace Unnest.Text

theorem trimmed_iff_all {text : List Char} :
    Trimmed text ↔
      text.head?.all (!isBlank ·) = true ∧ text.getLast?.all (!isBlank ·) = true := by
  simp [Trimmed, Option.all_eq_true]

instance (text : List Char) : Decidable (Trimmed text) :=
  decidable_of_iff _ trimmed_iff_all.symm

theorem ne_of_isBlank {c d : Char} (hc : isBlank c = true) (hd : isBlank d = false) : c ≠ d := by
  rintro rfl
  rw [hc] at hd
  cases hd

theorem isBlank_of_mem_space : ∀ c ∈ [' '], isBlank c = true := by
  intro c hc
  rw [List.mem_singleton.mp hc]
  rfl

/-! ## Texts with blanks around them -/

theorem trimStart_append_of_blanks {blanks : List Char} (text : List Char)
    (h : ∀ c ∈ blanks, isBlank c = true) : trimStart (blanks ++ text) = trimStart text := by
  rw [trimStart, List.dropWhile_append_of_pos h, trimStart]

theorem trimStart_eq_self {text : List Char}
    (h : ∀ c, text.head? = some c → isBlank c = false) : trimStart text = text := by
  cases text with
  | nil => rfl
  | cons c rest => simp [trimStart, h c rfl]

theorem trimEnd_eq_nil {blanks : List Char} (h : ∀ c ∈ blanks, isBlank c = true) :
    trimEnd blanks = [] := by
  induction blanks with
  | nil => rfl
  | cons c rest ih => simp_all [trimEnd]

theorem trimEnd_append_of_blanks {blanks : List Char} (text : List Char)
    (h : ∀ c ∈ blanks, isBlank c = true) : trimEnd (text ++ blanks) = trimEnd text := by
  induction text with
  | nil => exact trimEnd_eq_nil h
  | cons c rest ih => rw [List.cons_append, trimEnd, trimEnd, ih]

theorem trimEnd_eq_self {text : List Char}
    (h : ∀ c, text.getLast? = some c → isBlank c = false) : trimEnd text = text := by
  induction text with
  | nil => rfl
  | cons c rest ih =>
      cases rest with
      | nil => simp [trimEnd, h c rfl]
      | cons d rest =>
          rw [trimEnd, ih fun e he => h e (by rwa [List.getLast?_cons_cons])]

theorem Trimmed.trim_eq {text : List Char} (h : Trimmed text) : trim text = text := by
  rw [trim, trimStart_eq_self h.1, trimEnd_eq_self h.2]

theorem trim_append_of_blanks {before after : List Char} (text : List Char)
    (hbefore : ∀ c ∈ before, isBlank c = true) (hafter : ∀ c ∈ after, isBlank c = true) :
    trim (before ++ (text ++ after)) = trim text := by
  rw [trim, trimStart_append_of_blanks _ hbefore, trim]
  by_cases hblank : ∀ c ∈ text, isBlank c = true
  · have hall : ∀ c ∈ text ++ after, isBlank c = true := by
      intro c hc
      rcases List.mem_append.mp hc with hc | hc
      · exact hblank c hc
      · exact hafter c hc
    rw [trimStart, List.dropWhile_eq_nil_iff.mpr hall, trimStart,
      List.dropWhile_eq_nil_iff.mpr hblank]
  · have hstart : trimStart (text ++ after) = trimStart text ++ after := by
      rw [trimStart, List.dropWhile_append, if_neg, trimStart]
      rw [List.isEmpty_iff, List.dropWhile_eq_nil_iff]
      exact hblank
    rw [hstart, trimEnd_append_of_blanks _ hafter]

theorem exists_blanks_trim (text : List Char) :
    ∃ before after, text = before ++ (trim text ++ after) ∧
      (∀ c ∈ before, isBlank c = true) ∧ ∀ c ∈ after, isBlank c = true := by
  obtain ⟨after, hafter, hblank⟩ := trimEnd_append_blanks (trimStart text)
  refine ⟨text.takeWhile isBlank, after, ?_, ?_, hblank⟩
  · rw [trim, hafter, trimStart, List.takeWhile_append_dropWhile]
  · intro c hc
    exact List.mem_takeWhile_imp hc

theorem isBlank_of_trim_eq_nil {text : List Char} (h : trim text = []) :
    ∀ c ∈ text, isBlank c = true := by
  obtain ⟨before, after, hsplit, hbefore, hafter⟩ := exists_blanks_trim text
  rw [h, List.nil_append] at hsplit
  rw [hsplit]
  exact List.forall_mem_append.mpr ⟨hbefore, hafter⟩

theorem Trimmed.append {text rest : List Char} (h : Trimmed text) (hne : text ≠ [])
    (hrest : ∀ c, rest.getLast? = some c → isBlank c = false) : Trimmed (text ++ rest) := by
  constructor
  · intro c hc
    obtain ⟨d, others, rfl⟩ := List.exists_cons_of_ne_nil hne
    exact h.1 c hc
  · intro c hc
    rw [List.getLast?_append, Option.or_eq_some_iff] at hc
    rcases hc with hc | ⟨-, hc⟩
    · exact hrest c hc
    · exact h.2 c hc

theorem trim_cons_blank {c : Char} (h : isBlank c = true) (text : List Char) :
    trim (c :: text) = trim text := by
  rw [trim, trimStart, List.dropWhile_cons_of_pos h, trim, trimStart]

/-! ## Counting -/

theorem count_blanks {c : Char} (hc : isBlank c = false) {blanks : List Char}
    (h : ∀ d ∈ blanks, isBlank d = true) : blanks.count c = 0 := by
  rw [List.count_eq_zero]
  intro hmem
  exact ne_of_isBlank (h c hmem) hc rfl

theorem count_trimEnd {c : Char} (hc : isBlank c = false) (text : List Char) :
    (trimEnd text).count c = text.count c := by
  obtain ⟨blanks, hsplit, hblank⟩ := trimEnd_append_blanks text
  conv => rhs; rw [← hsplit, List.count_append, count_blanks hc hblank]
  rfl

theorem count_trim {c : Char} (hc : isBlank c = false) (text : List Char) :
    (trim text).count c = text.count c := by
  obtain ⟨before, after, hsplit, hbefore, hafter⟩ := exists_blanks_trim text
  conv => rhs; rw [hsplit, List.count_append, List.count_append, count_blanks hc hbefore,
    count_blanks hc hafter, Nat.zero_add, Nat.add_zero]

theorem trim_ne_nil_of_mem {c : Char} (hc : isBlank c = false) {text : List Char}
    (hmem : c ∈ text) : trim text ≠ [] := by
  have hcount := count_trim hc text
  intro hnil
  rw [hnil, List.count_nil, eq_comm, List.count_eq_zero] at hcount
  exact hcount hmem

end Unnest.Text
