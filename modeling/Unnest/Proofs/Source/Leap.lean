import Unnest.Proofs.Source.Offset

/-!
# Heads, leap by leap

The scan of a head takes one character after the other and remembers where it is.
Outside of strings and comments its steps can be put together to leaps: over a
comment, over a string with its quotes, over a backslash and what it escapes.
-/

namespace Unnest.Source.Head

open Text

/-- A reading with more text in front of what it keeps. -/
def behind (kept : List Char) (found : Except Fault (List Char × List Char)) :
    Except Fault (List Char × List Char) :=
  found.map fun (text, left) => (kept ++ text, left)

@[simp] theorem behind_ok (kept text left : List Char) :
    behind kept (.ok (text, left)) = .ok (kept ++ text, left) := rfl

@[simp] theorem behind_error (kept : List Char) (fault : Fault) :
    behind kept (.error fault) = .error fault := rfl

@[simp] theorem behind_nil (found : Except Fault (List Char × List Char)) :
    behind [] found = found := by
  cases found <;> rfl

@[simp] theorem behind_behind (kept kept' : List Char)
    (found : Except Fault (List Char × List Char)) :
    behind kept (behind kept' found) = behind (kept ++ kept') found := by
  cases found with
  | error fault => rfl
  | ok found => simp [behind, Except.map]

theorem readFrom_of_keeps {scan : Scan} {c : Char} {rest : List Char}
    (hstops : scan.stops c = false) (hfault : scan.place.faultAt? c = none)
    (hkeeps : scan.place.keeps c rest = true) :
    readFrom scan (c :: rest) = behind [c] (readFrom (scan.step c rest) rest) := by
  rw [readFrom, hstops, hfault, hkeeps]
  cases readFrom (scan.step c rest) rest <;> rfl

theorem readFrom_of_not_keeps {scan : Scan} {c : Char} {rest : List Char}
    (hstops : scan.stops c = false) (hfault : scan.place.faultAt? c = none)
    (hkeeps : scan.place.keeps c rest = false) :
    readFrom scan (c :: rest) = readFrom (scan.step c rest) rest := by
  rw [readFrom, hstops, hfault, hkeeps]
  cases readFrom (scan.step c rest) rest <;> rfl

/-! ## Over a comment -/

section comment

variable (start : List Char) (depth : Nat)

private theorem readFrom_comment_cons (star : Bool) (c : Char) (rest : List Char) :
    readFrom ⟨.comment start star, depth⟩ (c :: rest) =
      readFrom ⟨if star ∧ c = '/' then .plain else .comment start (c == '*'), depth⟩ rest :=
  readFrom_of_not_keeps rfl rfl rfl

/-- A star that is no part of a closing mark changes nothing. -/
private theorem readFrom_comment_star {rest : List Char} (h : rest.head? ≠ some '/')
    (star : Bool) :
    readFrom ⟨.comment start star, depth⟩ rest = readFrom ⟨.comment start false, depth⟩ rest := by
  cases rest with
  | nil => rfl
  | cons c rest =>
      have hc : c ≠ '/' := fun heq => h (congrArg some heq)
      rw [readFrom_comment_cons, readFrom_comment_cons]
      simp [hc]

theorem readFrom_comment (body : List Char) :
    readFrom ⟨.comment start false, depth⟩ body =
      match cutComment body with
      | none => .error ⟨.unclosedComment, start⟩
      | some (_, after) => readFrom ⟨.plain, depth⟩ after := by
  induction body with
  | nil => rfl
  | cons c rest ih =>
      rw [readFrom_comment_cons, if_neg (by simp), cutComment]
      by_cases hmark : c = '*' ∧ rest.head? = some '/'
      · obtain ⟨rfl, hslash⟩ := hmark
        obtain ⟨after, rfl⟩ := List.head?_eq_some_iff.mp hslash
        rw [if_pos ⟨rfl, rfl⟩, readFrom_comment_cons]
        rfl
      · have hstar : readFrom ⟨.comment start (c == '*'), depth⟩ rest =
            readFrom ⟨.comment start false, depth⟩ rest := by
          by_cases hc : c = '*'
          · exact readFrom_comment_star start depth (fun hslash => hmark ⟨hc, hslash⟩) _
          · rw [beq_false_of_ne hc]
        rw [if_neg hmark, hstar, ih]
        cases cutComment rest <;> rfl

end comment

theorem readFrom_opensComment (depth : Nat) (body : List Char) :
    readFrom ⟨.plain, depth⟩ ('/' :: '*' :: body) =
      match cutComment body with
      | none => .error ⟨.unclosedComment, '/' :: '*' :: body⟩
      | some (_, after) => readFrom ⟨.plain, depth⟩ after := by
  have hstops : (⟨.plain, depth⟩ : Scan).stops '/' = false := by simp [Scan.stops, isTerminator]
  rw [readFrom_of_not_keeps hstops rfl rfl, readFrom_of_not_keeps rfl rfl rfl]
  exact readFrom_comment _ depth body

/-! ## Over a string -/

section string

variable (quote : Char) (start : List Char) (depth : Nat)

private def inString (escaped : Bool) : Place :=
  if escaped then .stringEscaped quote start else .string quote start

/-- How the scan goes on in a string, when `found` says where it is closed. -/
private def LeapsTo (escaped : Bool) (index : Nat) (text : List Char) : Option Nat → Prop
  | none => readFrom ⟨inString quote start escaped, depth⟩ text = .error ⟨.unclosedString, start⟩
  | some stop =>
      ∃ body after, text = body ++ quote :: after ∧ stop = index + byteLength body ∧
        readFrom ⟨inString quote start escaped, depth⟩ text =
          behind (body ++ [quote]) (readFrom ⟨.plain, depth⟩ after)

variable {quote start depth}

private theorem LeapsTo.cons {escaped escaped' : Bool} {index : Nat} {c : Char} {rest : List Char}
    {found : Option Nat}
    (h : LeapsTo quote start depth escaped' (index + c.utf8Size) rest found)
    (hstep : readFrom ⟨inString quote start escaped, depth⟩ (c :: rest) =
      behind [c] (readFrom ⟨inString quote start escaped', depth⟩ rest)) :
    LeapsTo quote start depth escaped index (c :: rest) found := by
  cases found with
  | none =>
      have hread : readFrom _ rest = _ := h
      exact hstep.trans (congrArg (behind [c]) hread)
  | some stop =>
      obtain ⟨body, after, rfl, rfl, hread⟩ := h
      refine ⟨c :: body, after, rfl, by simp [Nat.add_assoc], ?_⟩
      rw [hstep, hread, behind_behind]
      rfl

private theorem leapsTo_closingQuote? (start : List Char) (depth : Nat) (hquote : quote ≠ '\n')
    (escaped : Bool) (index : Nat) (text : List Char) :
    LeapsTo quote start depth escaped index text
      (ByOffset.closingQuote? quote escaped index text) := by
  fun_induction ByOffset.closingQuote? quote escaped index text with
  | case1 escaped index => cases escaped <;> rfl
  | case2 index c rest ih => exact ih.cons (readFrom_of_keeps rfl rfl rfl)
  | case3 index rest ih => exact ih.cons (readFrom_of_keeps rfl rfl rfl)
  | case4 index rest hescape =>
      refine ⟨[], rest, rfl, rfl, ?_⟩
      have hfault : (inString quote start false).faultAt? quote = none := if_neg hquote
      have hnext : (inString quote start false).next quote rest = .plain := by
        rw [inString, if_neg Bool.false_ne_true, Place.next, if_neg hescape, if_pos rfl]
      rw [readFrom_of_keeps rfl hfault rfl, Scan.step, hnext]
      rfl
  | case5 index rest hescape hclose => rfl
  | case6 index c rest hescape hclose hline ih =>
      have hfault : (inString quote start false).faultAt? c = none := if_neg hline
      have hnext : (inString quote start false).next c rest = inString quote start false := by
        rw [inString, if_neg Bool.false_ne_true, Place.next, if_neg hescape, if_neg hclose]
      refine ih.cons ?_
      rw [readFrom_of_keeps rfl hfault rfl, Scan.step, hnext]
      rfl

end string

theorem opensComment_of_isQuote {quote : Char} (hquote : isQuote quote = true)
    (rest : List Char) : opensComment quote rest = false := by
  simp [opensComment, ne_of_isQuote hquote (c := '/') rfl]

theorem isTerminator_of_isQuote {quote : Char} (hquote : isQuote quote = true) :
    isTerminator quote = false := by
  simp [isTerminator, ne_of_isQuote hquote (c := '\x7b') rfl,
    ne_of_isQuote hquote (c := ';') rfl, ne_of_isQuote hquote (c := '\x7d') rfl]

/-- In front of a quote the scan fails, or leaps over the string that it opens. -/
theorem cases_readFrom_quote (depth : Nat) {quote : Char} (hquote : isQuote quote = true)
    (rest : List Char) :
    (ByOffset.closingQuote? quote false 0 rest = none ∧
        readFrom ⟨.plain, depth⟩ (quote :: rest) = .error ⟨.unclosedString, quote :: rest⟩) ∨
      ∃ body after, rest = body ++ quote :: after ∧
        ByOffset.closingQuote? quote false 0 rest = some (byteLength body) ∧
        readFrom ⟨.plain, depth⟩ (quote :: rest) =
          behind (quote :: (body ++ [quote])) (readFrom ⟨.plain, depth⟩ after) := by
  have hopens := opensComment_of_isQuote hquote rest
  have hstops : (⟨.plain, depth⟩ : Scan).stops quote = false := by
    simp [Scan.stops, isTerminator_of_isQuote hquote]
  have hnext : Place.next .plain quote rest = .string quote (quote :: rest) := by
    simp [Place.next, hopens, hquote]
  have hread : readFrom ⟨.plain, depth⟩ (quote :: rest) =
      behind [quote] (readFrom ⟨.string quote (quote :: rest), depth⟩ rest) := by
    rw [readFrom_of_keeps hstops rfl (by simp [Place.keeps, hopens]), Scan.step, hnext, if_pos rfl,
      depthAfter_of_isQuote hquote]
  have hleaps := leapsTo_closingQuote? (quote :: rest) depth (ne_of_isQuote hquote rfl) false 0 rest
  cases hclosing : ByOffset.closingQuote? quote false 0 rest with
  | none =>
      rw [hclosing] at hleaps
      have hfails : readFrom ⟨.string quote (quote :: rest), depth⟩ rest = _ := hleaps
      exact .inl ⟨rfl, by rw [hread, hfails, behind_error]⟩
  | some stop =>
      rw [hclosing] at hleaps
      obtain ⟨body, after, rfl, rfl, hleap⟩ := hleaps
      refine .inr ⟨body, after, rfl, by rw [Nat.zero_add], ?_⟩
      have hleap : readFrom ⟨.string quote _, depth⟩ _ = _ := hleap
      rw [hread, hleap, behind_behind]
      rfl

/-! ## Over a backslash, and one by one -/

private theorem readFrom_backslash_cons (depth : Nat) (rest : List Char) :
    readFrom ⟨.plain, depth⟩ ('\\' :: rest) =
      behind ['\\'] (readFrom ⟨.escaped, depth⟩ rest) := by
  have hstops : (⟨.plain, depth⟩ : Scan).stops '\\' = false := by simp [Scan.stops, isTerminator]
  exact readFrom_of_keeps hstops rfl rfl

theorem readFrom_backslash (depth : Nat) :
    readFrom ⟨.plain, depth⟩ ['\\'] = .ok (['\\'], []) := by
  rw [readFrom_backslash_cons]
  rfl

theorem readFrom_escape (depth : Nat) (c : Char) (rest : List Char) :
    readFrom ⟨.plain, depth⟩ ('\\' :: c :: rest) =
      behind ['\\', c] (readFrom ⟨.plain, depth⟩ rest) := by
  have hescaped : readFrom ⟨.escaped, depth⟩ (c :: rest) =
      behind [c] (readFrom ⟨.plain, depth⟩ rest) := readFrom_of_keeps rfl rfl rfl
  rw [readFrom_backslash_cons, hescaped, behind_behind]
  rfl

theorem readFrom_terminator {c : Char} (hc : isTerminator c = true) (rest : List Char) :
    readFrom {} (c :: rest) = .ok ([], c :: rest) := by
  rw [readFrom, if_pos]
  simpa [Scan.stops] using hc

theorem readFrom_other {depth : Nat} {c : Char} {rest : List Char}
    (hstops : ¬ (depth = 0 ∧ isTerminator c = true)) (hopens : opensComment c rest = false)
    (hquote : isQuote c = false) (hescape : c ≠ '\\') :
    readFrom ⟨.plain, depth⟩ (c :: rest) =
      behind [c] (readFrom ⟨.plain, depthAfter depth c⟩ rest) := by
  have hnext : Place.next .plain c rest = .plain := by simp [Place.next, hopens, hquote, hescape]
  have hstops : (⟨.plain, depth⟩ : Scan).stops c = false := by
    simpa [Scan.stops] using hstops
  rw [readFrom_of_keeps hstops rfl (by simp [Place.keeps, hopens]), Scan.step, hnext, if_pos rfl]

end Unnest.Source.Head
