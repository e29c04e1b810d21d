import ChartPlan.Dict

/-!
# Explicit and implicit properties

A property was either written by the user or inferred. `Split` keeps the two apart: reading prefers
what the user wrote, and setting a property on one side removes it from the other.
-/

namespace ChartPlan

/-- A value and whether the user wrote it. -/
structure Setting (α : Type) where
  value : α
  explicit : Bool

/-- Properties that the user wrote and properties that were inferred. -/
structure Split (α : Type) where
  explicit : Dict α := []
  implicit : Dict α := []

namespace Split

variable {α : Type}

def get? (s : Split α) (key : String) : Option α :=
  (s.explicit.get? key).or (s.implicit.get? key)

def setting? (s : Split α) (key : String) : Option (Setting α) :=
  match s.explicit.get? key with
  | some v => some ⟨v, true⟩
  | none => (s.implicit.get? key).map (⟨·, false⟩)

def has (s : Split α) (key : String) : Bool :=
  s.explicit.has key || s.implicit.has key

def set (s : Split α) (key : String) (value : α) (explicit : Bool) : Split α :=
  if explicit then ⟨s.explicit.insert key value, s.implicit.erase key⟩
  else ⟨s.explicit.erase key, s.implicit.insert key value⟩

def put (s : Split α) (key : String) (setting : Setting α) : Split α :=
  s.set key setting.value setting.explicit

def infer (s : Split α) (key : String) (value : α) : Split α :=
  if s.has key then s else { s with implicit := s.implicit.insert key value }

def writeAll (s : Split α) (fields : Dict α) : Split α :=
  fields.foldl (fun acc entry => acc.set entry.1 entry.2 true) s

def erase (s : Split α) (key : String) : Split α :=
  ⟨s.explicit.erase key, s.implicit.erase key⟩

def keys (s : Split α) : List String :=
  s.explicit.keys ++ s.implicit.keys.filter fun key => !s.explicit.has key

def combine (s : Split α) : Dict α :=
  s.implicit.extend s.explicit

def isEmpty (s : Split α) : Bool :=
  s.explicit.isEmpty && s.implicit.isEmpty

end Split

end ChartPlan
