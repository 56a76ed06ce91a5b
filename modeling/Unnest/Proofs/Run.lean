import Unnest.Run

/-!
# What a run keeps

A step keeps a property of sheets if it leaves a sheet with it whenever it finds
one, no matter whether the step fails. This goes from the edits in a step to the
whole step along the way in which it is put together.
-/

namespace Unnest

structure Sheet.Stable (P : Sheet → Prop) : Prop where
  append {s t : Sheet} {parent id : NodeId} {content : Content} :
    P s → s.append parent content = .ok (id, t) → P t
  move {s t : Sheet} {parent child : NodeId} : P s → s.move parent child = .ok t → P t
  copyRule {s t : Sheet} {id copy : NodeId} {selector : String} :
    P s → s.copyRule id selector = .ok (copy, t) → P t
  detach {s t : Sheet} {id : NodeId} : P s → s.detach id = .ok t → P t

namespace RunM

variable {ε δ α β : Type} {P : Sheet → Prop}

def Keeps (P : Sheet → Prop) (step : RunM ε α) : Prop :=
  ∀ run, P run.sheet → P (exec step run).2.sheet

namespace Keeps

theorem pure (a : α) : Keeps P (pure a : RunM ε α) :=
  fun _ h => h

theorem getSheet : Keeps P (getSheet : RunM ε Sheet) :=
  fun _ h => h

theorem record (entry : LogEntry) : Keeps P (record entry : RunM ε Unit) :=
  fun _ h => h

theorem settle (outcome : Except ε α) : Keeps P (settle outcome) :=
  fun _ h => h

theorem bind {step : RunM ε α} {next : α → RunM ε β} (hstep : Keeps P step)
    (hnext : ∀ a, Keeps P (next a)) : Keeps P (step >>= next) := by
  intro run h
  have hmid := hstep run h
  rw [exec_bind]
  split
  · next a mid heq =>
      rw [heq] at hmid
      exact hnext a mid hmid
  · next heq => rwa [heq] at hmid

theorem mapError (f : ε → δ) {step : RunM ε α} (h : Keeps P step) :
    Keeps P (step.mapError f) := by
  intro run hrun
  rw [exec_mapError]
  exact h run hrun

theorem edit {change : Sheet → Except EditError Sheet}
    (h : ∀ {s t}, P s → change s = .ok t → P t) : Keeps P (edit change) := by
  intro run hrun
  rw [exec_edit]
  split
  · next hchange => exact h hrun hchange
  · exact hrun

theorem create {change : Sheet → Except EditError (NodeId × Sheet)}
    (h : ∀ {s id t}, P s → change s = .ok (id, t) → P t) : Keeps P (create change) := by
  intro run hrun
  rw [exec_create]
  split
  · next hchange => exact h hrun hchange
  · exact hrun

theorem foldlM {step : β → α → RunM ε β} (h : ∀ b a, Keeps P (step b a)) (items : List α)
    (start : β) : Keeps P (items.foldlM step start) := by
  induction items generalizing start with
  | nil => exact pure start
  | cons item items ih =>
      rw [List.foldlM_cons]
      exact (h start item).bind ih

theorem forM {step : α → RunM ε Unit} (h : ∀ a, Keeps P (step a)) (items : List α) :
    Keeps P (items.forM step) := by
  induction items with
  | nil => exact pure ()
  | cons item items ih => exact (h item).bind fun _ => ih

end Keeps

end RunM

end Unnest
