import Unnest.Log
import Unnest.Sheet.Edit

/-!
# Runs

A run works on a sheet and keeps a log. It may fail, and then the sheet stays
as far changed as it was, and the log as far written.
-/

namespace Unnest

structure Run where
  sheet : Sheet
  log : List LogEntry := []
deriving DecidableEq

/-- A step of a run, which fails with an `ε` or gives a result. -/
abbrev RunM (ε : Type) := ExceptT ε (StateM Run)

namespace RunM

variable {ε α : Type}

def exec (step : RunM ε α) (run : Run) : Except ε α × Run :=
  StateT.run (ExceptT.run step) run

def getSheet : RunM ε Sheet :=
  Run.sheet <$> get

def setSheet (sheet : Sheet) : RunM ε Unit :=
  modify fun run => { run with sheet }

def record (entry : LogEntry) : RunM ε Unit :=
  modify fun run => { run with log := run.log ++ [entry] }

/-- Goes on with a result, or fails with an error, that is there already. -/
def settle (outcome : Except ε α) : RunM ε α :=
  ExceptT.mk (pure outcome)

def edit (change : Sheet → Except EditError Sheet) : RunM EditError Unit := do
  let sheet ← settle (change (← getSheet))
  setSheet sheet

def create (change : Sheet → Except EditError (NodeId × Sheet)) : RunM EditError NodeId := do
  let (id, sheet) ← settle (change (← getSheet))
  setSheet sheet
  return id

def mapError {δ : Type} (f : ε → δ) (step : RunM ε α) : RunM δ α :=
  ExceptT.adapt f step

@[simp] theorem exec_pure (a : α) (run : Run) :
    exec (pure a : RunM ε α) run = (.ok a, run) := rfl

theorem exec_bind {β : Type} (step : RunM ε α) (next : α → RunM ε β) (run : Run) :
    exec (step >>= next) run =
      match exec step run with
      | (.ok a, run') => exec (next a) run'
      | (.error e, run') => (.error e, run') := by
  simp only [exec, bind, ExceptT.bind, ExceptT.mk, ExceptT.run, StateT.run, StateT.bind]
  generalize step run = outcome
  obtain ⟨result, run'⟩ := outcome
  cases result <;> rfl

@[simp] theorem exec_getSheet (run : Run) :
    exec (getSheet : RunM ε Sheet) run = (.ok run.sheet, run) := rfl

@[simp] theorem exec_record (entry : LogEntry) (run : Run) :
    exec (record entry : RunM ε Unit) run =
      (.ok (), { run with log := run.log ++ [entry] }) := rfl

@[simp] theorem exec_settle (outcome : Except ε α) (run : Run) :
    exec (settle outcome) run = (outcome, run) := rfl

theorem exec_mapError {δ : Type} (f : ε → δ) (step : RunM ε α) (run : Run) :
    exec (mapError f step) run = ((exec step run).1.mapError f, (exec step run).2) :=
  rfl

theorem exec_edit (change : Sheet → Except EditError Sheet) (run : Run) :
    exec (edit change) run =
      match change run.sheet with
      | .ok sheet => (.ok (), { run with sheet })
      | .error e => (.error e, run) := by
  simp only [edit, exec_bind, exec_getSheet, exec_settle]
  cases change run.sheet <;> rfl

theorem exec_create (change : Sheet → Except EditError (NodeId × Sheet)) (run : Run) :
    exec (create change) run =
      match change run.sheet with
      | .ok (id, sheet) => (.ok id, { run with sheet })
      | .error e => (.error e, run) := by
  simp only [create, exec_bind, exec_getSheet, exec_settle]
  cases change run.sheet <;> rfl

end RunM

end Unnest
