import Mathlib.Data.List.Basic
import Unnest.Source.Head

/-!
# Heads that are kept as they stand

A head without comments is the text that is read. `State.run?` scans such a
text by itself: its states know nothing of the text behind them, so that texts
can be scanned one after the other. Reading a text and running it agree, and a
head that is cut off at its terminator is one that runs back to the start.

When a comment is left out, slashes are lost; this tells it from a head that is
kept, whatever is written around it.
-/

namespace Unnest.Source.Head

open Text

/-- What is written behind a text opens no comment in it, unless it begins with
the star that a slash is waiting for. -/
theorem opensComment_append {c : Char} {rest suffix : List Char}
    (h : suffix.head? = some '*' → (c :: rest).getLast? ≠ some '/') :
    opensComment c (rest ++ suffix) = opensComment c rest := by
  cases rest with
  | nil =>
      rw [List.getLast?_singleton, ne_eq, Option.some.injEq] at h
      by_cases hstar : suffix.head? = some '*'
      · simp [opensComment, h hstar]
      · simp [opensComment, hstar]
  | cons d rest => rfl

/-- A place without the text that strings remember. -/
inductive Mode where
  | plain
  | escaped
  | string (quote : Char)
  | stringEscaped (quote : Char)
deriving DecidableEq

structure State where
  mode : Mode := .plain
  depth : Nat := 0
deriving DecidableEq

def Mode.next (mode : Mode) (c : Char) : Mode :=
  match mode with
  | plain => if isQuote c then string c else if c = '\\' then escaped else plain
  | escaped => plain
  | string quote =>
      if c = '\\' then stringEscaped quote else if c = quote then plain else string quote
  | stringEscaped quote => string quote

namespace State

def step (state : State) (c : Char) : State where
  mode := state.mode.next c
  depth := if state.mode = .plain then depthAfter state.depth c else state.depth

/-- Whether `c`, in front of `rest`, is kept and does not end the text. -/
def takes (state : State) (c : Char) (rest : List Char) : Bool :=
  match state.mode with
  | .plain => !opensComment c rest && !(state.depth == 0 && isTerminator c)
  | .string _ => c != '\n'
  | .escaped | .stringEscaped _ => true

def run? (state : State) : List Char → Option State
  | [] => some state
  | c :: rest => if state.takes c rest then (state.step c).run? rest else none

theorem takes_append {state : State} {c : Char} {rest suffix : List Char}
    (h : suffix.head? = some '*' → (c :: rest).getLast? ≠ some '/') :
    state.takes c (rest ++ suffix) = state.takes c rest := by
  simp only [takes, opensComment_append h]

theorem takes_of_append {state : State} {c : Char} {rest suffix : List Char}
    (h : state.takes c (rest ++ suffix) = true) : state.takes c rest = true := by
  cases rest with
  | nil =>
      have hopens : opensComment c [] = false := by simp [opensComment]
      unfold takes at h ⊢
      split at h <;> simp_all
  | cons d rest => exact h

/-- Two texts are run one after the other, unless they meet in a comment. -/
theorem run?_append_of_apart {state : State} {text suffix : List Char}
    (h : suffix.head? = some '*' → text.getLast? ≠ some '/') :
    state.run? (text ++ suffix) = (state.run? text).bind (·.run? suffix) := by
  induction text generalizing state with
  | nil => rfl
  | cons c rest ih =>
      rw [List.cons_append, run?, run?, takes_append h]
      split
      · cases rest with
        | nil => rfl
        | cons d rest =>
            rw [List.getLast?_cons_cons] at h
            exact ih h
      · rfl

theorem run?_append {state : State} {text suffix : List Char} (h : suffix.head? ≠ some '*') :
    state.run? (text ++ suffix) = (state.run? text).bind (·.run? suffix) :=
  run?_append_of_apart fun hstar => absurd hstar h

/-- The parts of a text that runs do so one after the other. -/
theorem exists_run?_of_append {state state' : State} {text suffix : List Char}
    (h : state.run? (text ++ suffix) = some state') :
    ∃ mid, state.run? text = some mid ∧ mid.run? suffix = some state' := by
  induction text generalizing state with
  | nil => exact ⟨state, rfl, h⟩
  | cons c rest ih =>
      rw [List.cons_append, run?] at h
      split at h
      · next htakes =>
          obtain ⟨mid, hmid, hsuffix⟩ := ih h
          refine ⟨mid, ?_, hsuffix⟩
          rw [run?, if_pos (takes_of_append htakes), hmid]
      · cases h

end State

/-! ## Places and modes -/

/-- The mode at a place. A comment stands at a plain place. -/
def Place.mode : Place → Mode
  | plain | commentOpening _ | comment .. => .plain
  | escaped => .escaped
  | string quote _ => .string quote
  | stringEscaped quote _ => .stringEscaped quote

def Place.inComment : Place → Bool
  | commentOpening _ | comment .. => true
  | _ => false

def Scan.state (scan : Scan) : State :=
  ⟨scan.place.mode, scan.depth⟩

def Scan.after (scan : Scan) : List Char → Scan
  | [] => scan
  | c :: rest => (scan.step c rest).after rest

theorem eq_plain_of_mode {place : Place} (h : place.mode = .plain)
    (hcomment : place.inComment = false) : place = .plain := by
  cases place <;> simp_all [Place.mode, Place.inComment]

theorem inComment_of_keeps {place : Place} {c : Char} {rest : List Char}
    (h : place.keeps c rest = true) : place.inComment = false := by
  cases place <;> simp_all [Place.keeps, Place.inComment]

/-- Outside comments the mode moves on by itself. -/
theorem mode_next {place : Place} {c : Char} {rest : List Char}
    (hcomment : place.inComment = false) (hkeeps : place.keeps c rest = true) :
    (place.next c rest).mode = place.mode.next c ∧ (place.next c rest).inComment = false := by
  cases place with
  | plain =>
      have hopens : ¬ opensComment c rest = true := by simpa [Place.keeps] using hkeeps
      simp only [Place.next, Place.mode, Mode.next, if_neg hopens]
      by_cases hquote : isQuote c = true
      · simp only [if_pos hquote]
        exact ⟨trivial, rfl⟩
      · by_cases hescape : c = '\\'
        · simp only [if_neg hquote, if_pos hescape]
          exact ⟨trivial, rfl⟩
        · simp only [if_neg hquote, if_neg hescape]
          exact ⟨trivial, rfl⟩
  | escaped => exact ⟨rfl, rfl⟩
  | string quote start =>
      simp only [Place.next, Place.mode, Mode.next]
      by_cases hescape : c = '\\'
      · simp only [if_pos hescape]
        exact ⟨trivial, rfl⟩
      · by_cases hquote : c = quote
        · simp only [if_neg hescape, if_pos hquote]
          exact ⟨trivial, rfl⟩
        · simp only [if_neg hescape, if_neg hquote]
          exact ⟨trivial, rfl⟩
  | stringEscaped quote start => exact ⟨rfl, rfl⟩
  | commentOpening start => cases hcomment
  | comment start star => cases hcomment

theorem state_step {scan : Scan} {c : Char} {rest : List Char}
    (hcomment : scan.place.inComment = false) (hkeeps : scan.place.keeps c rest = true) :
    (scan.step c rest).state = scan.state.step c := by
  have hplain : scan.place = .plain ↔ scan.place.mode = .plain :=
    ⟨fun h => h ▸ rfl, fun h => eq_plain_of_mode h hcomment⟩
  have hdepth : (scan.step c rest).depth = (scan.state.step c).depth := if_congr hplain rfl rfl
  rw [Scan.state, hdepth]
  exact congrArg (State.mk · _) (mode_next hcomment hkeeps).1

theorem state_step_of_not_keeps {scan : Scan} {c : Char} {rest : List Char}
    (h : scan.place.keeps c rest = false) : (scan.step c rest).state = scan.state := by
  obtain ⟨place, depth⟩ := scan
  cases place with
  | plain =>
      have hopens : opensComment c rest = true := by simpa [Place.keeps] using h
      obtain ⟨rfl, -⟩ : c = '/' ∧ rest.head? = some '*' := by simpa [opensComment] using hopens
      simp [Scan.step, Scan.state, Place.next, hopens, Place.mode, depthAfter]
  | commentOpening start => rfl
  | comment start star =>
      rw [Scan.step, Scan.state, Scan.state, Place.next]
      split <;> rfl
  | _ => cases h

theorem takes_iff {scan : Scan} {c : Char} {rest : List Char}
    (hcomment : scan.place.inComment = false) :
    scan.state.takes c rest = true ↔
      scan.stops c = false ∧ scan.place.faultAt? c = none ∧ scan.place.keeps c rest = true := by
  obtain ⟨place, depth⟩ := scan
  cases place with
  | plain =>
      simp only [Scan.state, State.takes, Place.mode, Scan.stops, Place.faultAt?, Place.keeps,
        beq_self_eq_true, Bool.true_and, Bool.and_eq_true, Bool.not_eq_true', true_and, and_comm]
  | escaped => simp [Scan.state, State.takes, Place.mode, Scan.stops, Place.faultAt?, Place.keeps]
  | string quote start => simp [Scan.state, State.takes, Place.mode, Scan.stops, Place.faultAt?,
      Place.keeps]
  | stringEscaped quote start => simp [Scan.state, State.takes, Place.mode, Scan.stops,
      Place.faultAt?, Place.keeps]
  | commentOpening start => simp [Place.inComment] at hcomment
  | comment start star => simp [Place.inComment] at hcomment

/-! ## Reading a text that runs -/

theorem readFrom_append {scan : Scan} {state : State} {text suffix : List Char}
    (hcomment : scan.place.inComment = false) (h : scan.state.run? text = some state)
    (hsuffix : suffix.head? ≠ some '*') :
    ∃ scan' : Scan, scan'.state = state ∧ scan'.place.inComment = false ∧
      readFrom scan (text ++ suffix) =
        (readFrom scan' suffix).map fun (kept, left) => (text ++ kept, left) := by
  induction text generalizing scan with
  | nil =>
      refine ⟨scan, Option.some.inj h, hcomment, ?_⟩
      rw [List.nil_append]
      cases readFrom scan suffix <;> rfl
  | cons c rest ih =>
      rw [State.run?] at h
      split at h
      · next htakes =>
          rw [← State.takes_append fun hstar => absurd hstar hsuffix, takes_iff hcomment] at htakes
          obtain ⟨hstops, hfault, hkeeps⟩ := htakes
          rw [← state_step hcomment hkeeps] at h
          obtain ⟨scan', hscan', hplace', hread⟩ := ih (mode_next hcomment hkeeps).2 h
          refine ⟨scan', hscan', hplace', ?_⟩
          rw [List.cons_append, readFrom, hstops, hfault, hread]
          cases readFrom scan' suffix <;> simp [Except.map, hkeeps]
      · cases h

/-- A text that runs back to the start is a head in front of any terminator. -/
theorem read_append_of_run? {text rest : List Char} {c : Char}
    (h : ({} : State).run? text = some {}) (hc : isTerminator c = true) :
    read (text ++ c :: rest) = .ok (text, c :: rest) := by
  have hsuffix : (c :: rest).head? ≠ some '*' := by
    rw [List.head?_cons]
    rintro ⟨⟩
    cases hc
  have hrun : ({} : Scan).state.run? text = some {} := h
  obtain ⟨scan', hscan', hplace', hread⟩ := readFrom_append rfl hrun hsuffix
  have hscan : scan' = {} := by
    obtain ⟨place, depth⟩ := scan'
    simp only [Scan.state, State.mk.injEq] at hscan'
    rw [eq_plain_of_mode hscan'.1 hplace', hscan'.2]
  have hstops : ({} : Scan).stops c = true := by simpa [Scan.stops] using hc
  rw [read, hread, hscan, readFrom, if_pos hstops]
  simp [Except.map]

/-! ## Running a text that is read -/

theorem cases_of_readFrom_cons {scan : Scan} {c : Char} {rest text left : List Char}
    (h : readFrom scan (c :: rest) = .ok (text, left)) :
    (scan.stops c = true ∧ text = [] ∧ left = c :: rest) ∨
      (scan.stops c = false ∧ scan.place.faultAt? c = none ∧
        ∃ text', readFrom (scan.step c rest) rest = .ok (text', left) ∧
          text = if scan.place.keeps c rest then c :: text' else text') := by
  rw [readFrom] at h
  split at h
  · next hstops =>
      cases h
      exact .inl ⟨hstops, rfl, rfl⟩
  · next hstops =>
      split at h
      · cases h
      · next hfault =>
          split at h
          · cases h
          · next text' left' hread =>
              cases h
              exact .inr ⟨by simpa using hstops, hfault, text', hread, rfl⟩

theorem eq_slash_of_not_keeps {place : Place} {c : Char} {rest : List Char}
    (h : place.keeps c rest = false) (hnext : (place.next c rest).inComment = false) :
    c = '/' := by
  cases place with
  | plain =>
      have hopens : opensComment c rest = true := by simpa [Place.keeps] using h
      simp only [Place.next, if_pos hopens] at hnext
      cases hnext
  | comment start star =>
      rw [Place.next] at hnext
      split at hnext
      · next hclose => exact hclose.2
      · cases hnext
  | commentOpening start => cases hnext
  | _ => cases h

theorem sublist_of_readFrom {scan : Scan} {input text left : List Char}
    (h : readFrom scan input = .ok (text, left)) : text.Sublist input := by
  induction input generalizing scan text with
  | nil =>
      have hlength := length_readFrom h
      rw [List.length_nil, Nat.le_zero, Nat.add_eq_zero_iff] at hlength
      rw [List.eq_nil_of_length_eq_zero hlength.1]
  | cons c rest ih =>
      rcases cases_of_readFrom_cons h with ⟨-, rfl, -⟩ | ⟨-, -, text', hread, rfl⟩
      · exact List.nil_sublist _
      · split
        · exact (ih hread).cons_cons c
        · exact (ih hread).cons c

/-- Either all of the input is there, or slashes are missing. -/
theorem eq_append_or_count_lt {scan : Scan} {input text left : List Char}
    (h : readFrom scan input = .ok (text, left)) :
    scan.place.inComment = false ∧ input = text ++ left ∨
      text.count '/' + left.count '/' < input.count '/' := by
  induction input generalizing scan text with
  | nil =>
      rw [readFrom] at h
      split at h
      · cases h
      · next hfault =>
          cases h
          left
          refine ⟨?_, rfl⟩
          cases hplace : scan.place <;> simp_all [Place.faultAtEnd?, Place.inComment]
  | cons c rest ih =>
      rcases cases_of_readFrom_cons h with ⟨hstops, rfl, rfl⟩ | ⟨-, -, text', hread, rfl⟩
      · left
        refine ⟨?_, rfl⟩
        simp only [Scan.stops, Bool.and_eq_true, beq_iff_eq] at hstops
        rw [hstops.1.1]
        rfl
      · cases hkeeps : scan.place.keeps c rest with
        | true =>
            rcases ih hread with ⟨-, heq⟩ | hlt
            · exact .inl ⟨inComment_of_keeps hkeeps, by simp [heq]⟩
            · right
              rw [if_pos rfl, List.count_cons, List.count_cons]
              omega
        | false =>
            right
            rw [if_neg Bool.false_ne_true]
            rcases ih hread with ⟨hnext, heq⟩ | hlt
            · rw [eq_slash_of_not_keeps hkeeps hnext, List.count_cons_self, heq, List.count_append]
              exact Nat.lt_succ_self _
            · rw [List.count_cons]
              omega

/-- A head that is kept runs, back to the start if something is behind it. -/
theorem run?_of_readFrom {scan : Scan} {text left : List Char}
    (hcomment : scan.place.inComment = false)
    (h : readFrom scan (text ++ left) = .ok (text, left)) :
    ∃ state, scan.state.run? text = some state ∧ (left ≠ [] → state = {}) := by
  induction text generalizing scan with
  | nil =>
      refine ⟨scan.state, rfl, ?_⟩
      intro hne
      obtain ⟨c, rest, rfl⟩ := List.exists_cons_of_ne_nil hne
      rcases cases_of_readFrom_cons h with ⟨hstops, -, -⟩ | ⟨-, -, text', hread, -⟩
      · simp only [Scan.stops, Bool.and_eq_true, beq_iff_eq] at hstops
        rw [Scan.state, hstops.1.1, hstops.1.2]
        rfl
      · have hlen := length_readFrom hread
        rw [List.length_cons] at hlen
        omega
  | cons c rest ih =>
      rw [List.cons_append] at h
      rcases cases_of_readFrom_cons h with ⟨-, htext, -⟩ | ⟨hstops, hfault, text', hread, htext⟩
      · cases htext
      · cases hkeeps : scan.place.keeps c (rest ++ left) with
        | false =>
            rw [hkeeps, if_neg Bool.false_ne_true] at htext
            have hlen := length_readFrom hread
            rw [← htext, List.length_append, List.length_cons] at hlen
            omega
        | true =>
            rw [hkeeps, if_pos rfl] at htext
            cases htext
            have htakes : scan.state.takes c (rest ++ left) = true :=
              (takes_iff hcomment).mpr ⟨hstops, hfault, hkeeps⟩
            obtain ⟨state, hrun, hend⟩ := ih (mode_next hcomment hkeeps).2 hread
            rw [state_step hcomment hkeeps] at hrun
            refine ⟨state, ?_, hend⟩
            rw [State.run?, if_pos (State.takes_of_append htakes), hrun]

theorem after_of_run? {scan : Scan} {state : State} {text : List Char}
    (hcomment : scan.place.inComment = false) (h : scan.state.run? text = some state) :
    (scan.after text).state = state := by
  induction text generalizing scan with
  | nil => exact Option.some.inj h
  | cons c rest ih =>
      rw [State.run?] at h
      split at h
      · next htakes =>
          obtain ⟨-, -, hkeeps⟩ := (takes_iff hcomment).mp htakes
          rw [← state_step hcomment hkeeps] at h
          exact ih (mode_next hcomment hkeeps).2 h
      · cases h

end Unnest.Source.Head
