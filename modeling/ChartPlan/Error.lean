import ChartPlan.Diagnostics

/-!
# Errors

The reasons for which a chart is refused. `Error.message` is their wording.
-/

namespace ChartPlan

/-- A reason to refuse a chart. -/
inductive Error where
  /-- Something is missing or of a wrong shape at a place of the input. -/
  | invalidSpec (path message : String)
  /-- A transform of a known kind has fields that do not fit the kind. -/
  | invalidTransform (kind : String)
  /-- A channel definition cannot be read. -/
  | invalidEncoding (channel message : String)
  /-- Two position channels ask to be stacked. -/
  | contradictoryStack (message : String)
  /-- The dataflow is no forest. -/
  | invalidGraph (message : String)
  /-- The configuration cannot be read. -/
  | invalidConfig
deriving DecidableEq

namespace Error

def message : Error → String
  | .invalidSpec path message => "Invalid spec at '" ++ path ++ "': " ++ message
  | .invalidTransform kind => "Invalid '" ++ kind ++ "' transform"
  | .invalidEncoding channel message =>
    "Invalid encoding for channel '" ++ channel ++ "': " ++ message
  | .contradictoryStack message => "Cannot stack both x and y: " ++ message
  | .invalidGraph message => "Dataflow graph is inconsistent: " ++ message
  | .invalidConfig => "Invalid configuration"

end Error

abbrev Checked := ExceptT Error Logged

namespace Checked

variable {α : Type}

def fail (e : Error) : Checked α :=
  ExceptT.mk (pure (.error e))

def ofExcept (r : Except Error α) : Checked α :=
  ExceptT.mk (pure r)

def ofLogged (x : Logged α) : Checked α :=
  ExceptT.mk (x >>= fun a => pure (.ok a))

def warn (message : String) : Checked Unit :=
  ofLogged (Logged.warn message)

/-- Does work whose notes are recorded behind earlier ones; the records of work that is refused are
given up. -/
def recordIn (x : Checked α) (d : Diagnostics) : Except Error (α × Diagnostics) :=
  x.run.value.map fun a => (a, x.run.notes.foldl Diagnostics.record d)

@[simp] theorem recordIn_pure (a : α) (d : Diagnostics) : recordIn (pure a) d = .ok (a, d) := rfl

@[simp] theorem recordIn_warn (message : String) (d : Diagnostics) :
    recordIn (warn message) d = .ok ((), d.record ⟨.warn, message, false⟩) := rfl

/-- Notes are recorded as the work goes on: what the first part of it notes is on record when the
second part begins. -/
theorem recordIn_bind {β : Type} (x : Checked α) (f : α → Checked β) (d : Diagnostics) :
    recordIn (x >>= f) d = recordIn x d >>= fun r => recordIn (f r.1) r.2 := by
  obtain ⟨value, notes⟩ := x
  cases value with
  | error e => rfl
  | ok a =>
    show (f a).run.value.map (fun b => (b, (notes ++ (f a).run.notes).foldl Diagnostics.record d)) = _
    rw [List.foldl_append]
    rfl

end Checked

end ChartPlan
