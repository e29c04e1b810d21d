/-!
# Diagnostics

Work that can be reported on returns its result together with notes. A note is recorded when its
level is within the verbosity that the user chose, and a note marked `once` is left out when its text
has been recorded before. Nothing reads the records while the work is done, so the verbosity has no
influence on results.

* `Logged`: a result with the notes of the work that produced it.
* `Diagnostics.ofNotes`: the records of a verbosity.
-/

namespace ChartPlan

/-- How much is recorded, from nothing to everything; also the standing of a note. -/
inductive Level where
  | none
  | error
  | warn
  | info
  | debug
deriving DecidableEq

namespace Level

def rank : Level → Nat
  | .none => 0
  | .error => 1
  | .warn => 2
  | .info => 3
  | .debug => 4

def name : Level → String
  | .none => "none"
  | .error => "error"
  | .warn => "warn"
  | .info => "info"
  | .debug => "debug"

def ofName? (name : String) : Option Level :=
  [.none, .error, .warn, .info, .debug].find? fun level => level.name == name

def admits (verbosity level : Level) : Bool :=
  level != .none && level.rank ≤ verbosity.rank

end Level

/-- A remark on the work done. -/
structure Note where
  level : Level
  message : String
  /-- Left out when its text has been recorded before. -/
  once : Bool := false
deriving DecidableEq

/-- A recorded note. -/
structure Entry where
  level : Level
  message : String
deriving DecidableEq

/-- The records kept under a verbosity, in the order in which they were made. -/
structure Diagnostics where
  verbosity : Level
  entries : List Entry := []
deriving DecidableEq

namespace Diagnostics

def record (d : Diagnostics) (note : Note) : Diagnostics :=
  if note.once && d.entries.any (fun e => e.message == note.message) then d
  else if d.verbosity.admits note.level then
    { d with entries := d.entries ++ [⟨note.level, note.message⟩] }
  else d

def ofNotes (verbosity : Level) (notes : List Note) : Diagnostics :=
  notes.foldl record ⟨verbosity, []⟩

def warnings (d : Diagnostics) : List String :=
  (d.entries.filter fun e => e.level == .warn).map Entry.message

def hasWarnings (d : Diagnostics) : Bool :=
  !d.warnings.isEmpty

end Diagnostics

/-- A result and the notes of the work that produced it. -/
structure Logged (α : Type) where
  value : α
  notes : List Note := []

namespace Logged

instance : Monad Logged where
  pure a := ⟨a, []⟩
  bind x f := ⟨(f x.value).value, x.notes ++ (f x.value).notes⟩

def warn (message : String) : Logged Unit :=
  ⟨(), [⟨.warn, message, false⟩]⟩

@[simp] theorem value_pure {α : Type} (a : α) : (pure a : Logged α).value = a := rfl

@[simp] theorem notes_pure {α : Type} (a : α) : (pure a : Logged α).notes = [] := rfl

@[simp] theorem value_bind {α β : Type} (x : Logged α) (f : α → Logged β) :
    (x >>= f).value = (f x.value).value := rfl

@[simp] theorem notes_bind {α β : Type} (x : Logged α) (f : α → Logged β) :
    (x >>= f).notes = x.notes ++ (f x.value).notes := rfl

end Logged

/-- A supply of identifiers, each given out once. -/
structure IdSupply where
  next : Nat := 0
deriving DecidableEq

def IdSupply.take (s : IdSupply) : Nat × IdSupply :=
  (s.next, ⟨s.next + 1⟩)

end ChartPlan
