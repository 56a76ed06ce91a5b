import Unnest.Proofs.Flatten.Failure
import Unnest.Proofs.Run
import Unnest.Proofs.Sheet.Kept
import Unnest.Proofs.Source.Parsed

/-!
# Histories

What can be done to a sheet are the checked edits, with any arguments, and the
pass. The pass is made of checked edits, so that it keeps what each of them
keeps. A sheet that began empty or as the reading of a text is therefore
well-formed after any row of operations, the refused ones included.
-/

namespace Unnest

open RunM

namespace Sheet.Stable

variable {P : Sheet → Prop} (h : Stable P)
include h

theorem promote (rule : NodeId) : Keeps P (Flatten.promote rule) := by
  refine .bind .getSheet fun s => .bind (.settle _) fun selector => .bind (.record _) fun _ => ?_
  refine .bind (.mapError _ (.create h.copyRule)) fun copy => ?_
  exact .bind (.mapError _ (.edit h.move)) fun _ => .mapError _ (.edit h.detach)

theorem prune (path : List NodeId) : Keeps P (Flatten.prune path) := by
  induction path with
  | nil => exact .pure 0
  | cons id path ih =>
      refine .bind .getSheet fun s => ?_
      split
      · exact .bind (.mapError _ (.edit h.detach)) fun _ => .bind (.record _) fun _ =>
          .bind ih fun removed => .pure (removed + 1)
      · exact .pure 0

theorem visit (options : Flatten.Options) (tally : Tally) (rule : NodeId) :
    Keeps P (Flatten.visit options tally rule) := by
  refine .bind .getSheet fun s => ?_
  split
  · exact .pure _
  · split
    · exact .pure _
    · refine .bind (h.promote rule) fun _ => ?_
      split
      · exact .pure _
      · exact .bind .getSheet fun s => .bind (h.prune _) fun removed => .pure _

theorem pass (options : Flatten.Options) : Keeps P (Flatten.pass options) := by
  refine .bind (.record _) fun _ => .bind .getSheet fun s => .bind (.settle _) fun _ => ?_
  refine .bind (.foldlM (h.visit options) _ _) fun tally => ?_
  exact .bind (.record _) fun _ => .pure tally

end Sheet.Stable

/-! ## Operations -/

inductive Operation where
  | append (parent : NodeId) (content : Content)
  | move (parent child : NodeId)
  | copyRule (rule : NodeId) (selector : String)
  | detach (id : NodeId)
  | flatten (options : Flatten.Options)

def Operation.run : Operation → RunM PluginError Unit
  | append parent content => do
      let _ ← (create (·.append parent content)).mapError .edit
  | move parent child => (RunM.edit (·.move parent child)).mapError .edit
  | copyRule rule selector => do
      let _ ← (create (·.copyRule rule selector)).mapError .edit
  | detach id => (RunM.edit (·.detach id)).mapError .edit
  | flatten options => (Plugin.flatten options).run

/-- The run behind a row of operations. One that is refused is passed over. -/
def Run.after (run : Run) (operations : List Operation) : Run :=
  operations.foldl (fun run operation => (exec operation.run run).2) run

namespace Operation

theorem keeps {P : Sheet → Prop} (h : Sheet.Stable P) (operation : Operation) :
    Keeps P operation.run := by
  cases operation with
  | append parent content =>
      exact .bind (.mapError _ (.create h.append)) fun _ => .pure ()
  | move parent child => exact .mapError _ (.edit h.move)
  | copyRule rule selector =>
      exact .bind (.mapError _ (.create h.copyRule)) fun _ => .pure ()
  | detach id => exact .mapError _ (.edit h.detach)
  | flatten options => exact .bind (.mapError _ (h.pass options)) fun _ => .pure ()

theorem sheet_eq_of_error {operation : Operation} {run stop : Run} {error : PluginError}
    (h : exec operation.run run = (.error error, stop)) : stop.sheet = run.sheet := by
  cases operation with
  | append parent content =>
      simp only [Operation.run, exec_bind, exec_mapError, exec_create] at h
      cases hchange : run.sheet.append parent content <;> simp_all [Except.mapError]
  | move parent child =>
      simp only [Operation.run, exec_mapError, exec_edit] at h
      cases hchange : run.sheet.move parent child <;> simp_all [Except.mapError]
  | copyRule rule selector =>
      simp only [Operation.run, exec_bind, exec_mapError, exec_create] at h
      cases hchange : run.sheet.copyRule rule selector <;> simp_all [Except.mapError]
  | detach id =>
      simp only [Operation.run, exec_mapError, exec_edit] at h
      cases hchange : run.sheet.detach id <;> simp_all [Except.mapError]
  | flatten options => exact Flatten.sheet_eq_of_flatten_error h

end Operation

theorem Run.after_keeps {P : Sheet → Prop} (h : Sheet.Stable P) {run : Run}
    (hrun : P run.sheet) (operations : List Operation) : P (run.after operations).sheet := by
  induction operations generalizing run with
  | nil => exact hrun
  | cons operation operations ih => exact ih (operation.keeps h run hrun)

/-! ## Reached sheets -/

theorem stable_wellFormed : Sheet.Stable Sheet.WellFormed where
  append h := h.append
  move h := h.move
  copyRule h := h.copyRule
  detach h := h.detach

theorem stable_evolves (s : Sheet) : Sheet.Stable s.Evolves where
  append h happend := h.trans (.append happend)
  move h hmove := h.trans (.move hmove)
  copyRule h hcopy := h.trans (.copyRule hcopy)
  detach h hdetach := h.trans (.detach hdetach)

/-- A sheet that began empty or as the reading of a text stays well-formed. -/
theorem Run.wellFormed_after {start : Sheet}
    (hstart : start = .empty ∨ ∃ source, parse source = .ok start) (log : List LogEntry)
    (operations : List Operation) : (Run.after ⟨start, log⟩ operations).sheet.WellFormed := by
  apply Run.after_keeps stable_wellFormed
  rcases hstart with rfl | ⟨source, hsource⟩
  · exact Sheet.wellFormed_empty
  · exact wellFormed_of_parse hsource

/-- Whatever operations are done to a sheet that began empty or was read from a
text, it is well-formed, the check accepts it, what counts as attached is what
a walk finds, and the next operation lets it evolve or, refused, stay. -/
theorem operations_keep_wellFormed {start : Sheet}
    (hstart : start = .empty ∨ ∃ source, parse source = .ok start) (log : List LogEntry)
    (operations : List Operation) {run : Run}
    (hrun : run = Run.after ⟨start, log⟩ operations) :
    run.sheet.WellFormed ∧ run.sheet.validate = .ok () ∧
      (∀ id, run.sheet.isAttached id = true ↔ id ∈ run.sheet.walk) ∧
      ∀ operation : Operation,
        run.sheet.Evolves (exec operation.run run).2.sheet ∧
        ∀ error stop, exec operation.run run = (.error error, stop) →
          stop.sheet = run.sheet := by
  have hreached : run.sheet.WellFormed := by
    rw [hrun]
    exact Run.wellFormed_after hstart log operations
  have hlinked := hreached.linked
  refine ⟨hreached, hlinked.consistent.validate_eq_ok, ?_, ?_⟩
  · intro id
    rw [hlinked.isAttached_iff, hlinked.mem_walk]
  · intro operation
    exact ⟨operation.keeps (stable_evolves run.sheet) run (.refl _),
      fun error stop h => Operation.sheet_eq_of_error h⟩

/-- The rule that the pass makes of `c` gets an at-rule, which takes in what is
left of `c`, and gives way to a copy. Three of the operations are refused. -/
def editedRun : Run :=
  Run.after ⟨Flatten.nestedSheet, []⟩
    [.append 9 (.comment "z"), .flatten {}, .move 5 0, .append 5 (.atRule "m" "" false),
      .move 6 3, .move 3 6, .copyRule 5 "d", .detach 5, .move 0 7, .flatten ⟨true⟩]

theorem operations_keep_wellFormed_editedRun :
    parse "a\x7bb\x7bc\x7bx:y\x7d\x7d\x7d" = .ok Flatten.nestedSheet ∧
      editedRun.sheet.WellFormed ∧ editedRun.sheet.validate = .ok () ∧
      (∀ id, editedRun.sheet.isAttached id = true ↔ id ∈ editedRun.sheet.walk) ∧
      ∀ operation : Operation,
        editedRun.sheet.Evolves (exec operation.run editedRun).2.sheet ∧
        ∀ error stop, exec operation.run editedRun = (.error error, stop) →
          stop.sheet = editedRun.sheet := by
  have hparse : parse "a\x7bb\x7bc\x7bx:y\x7d\x7d\x7d" = .ok Flatten.nestedSheet := by
    decide +kernel
  exact ⟨hparse, operations_keep_wellFormed (.inr ⟨_, hparse⟩) [] _ rfl⟩

end Unnest
