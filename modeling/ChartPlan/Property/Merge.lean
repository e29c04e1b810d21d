import ChartPlan.Diagnostics
import ChartPlan.Json.Printer
import ChartPlan.Property.Split

/-!
# Merging properties

Components that become one merge property by property. An absent value yields to the other one, an
explicit value beats an inferred one, and equal values stay. Two different values of equal standing
go to the tie breaker of the property; a property without one keeps the first value.

* `Setting.merge`: the merged value.
* `Split.merge`: the merged properties of two components.
-/

namespace ChartPlan

abbrev TieBreaker := Setting Json → Setting Json → Setting Json

namespace Setting

def isTie (a b : Setting Json) : Bool :=
  a.explicit == b.explicit && !(a.value == b.value)

def merge (tie : Option TieBreaker) : Option (Setting Json) → Option (Setting Json) →
    Option (Setting Json)
  | none, b => b
  | a, none => a
  | some a, some b =>
    if a.explicit && !b.explicit then some a
    else if b.explicit && !a.explicit then some b
    else if a.value == b.value then some a
    else
      match tie with
      | some choose => some (choose a b)
      | none => some a

def loses (tie : Option TieBreaker) : Option (Setting Json) → Option (Setting Json) → Bool
  | some a, some b => tie.isNone && a.explicit && a.isTie b
  | _, _ => false

/-- Merges the values of a property of `owner`; a value of the user that is given up is noted. -/
def mergeNoted (tie : Option TieBreaker) (owner property : String) (a b : Option (Setting Json)) :
    Logged (Option (Setting Json)) := do
  if loses tie a b then
    Logged.warn ("Conflicting " ++ owner ++ " property \"" ++ property ++
      "\"; keeping the first value.")
  return merge tie a b

@[simp] theorem value_mergeNoted (tie : Option TieBreaker) (owner property : String)
    (a b : Option (Setting Json)) : (mergeNoted tie owner property a b).value = merge tie a b := by
  unfold mergeNoted
  split <;> rfl

end Setting

/-! ### Tie breakers -/

def domainRefs (domain : Json) : List Json :=
  match (domain.field? "fields").bind Json.items? with
  | some fields => fields
  | none => [domain]

def addNew (seen : List Json) (items : List Json) : List Json :=
  items.foldl (fun acc item => if acc.contains item then acc else acc ++ [item]) seen

/-- The union of two domains in order of first occurrence: of arrays their items, of anything else
the references. -/
def unionDomain (a b : Json) : Json :=
  match a, b with
  | .arr xs, .arr ys => .arr (addNew xs ys)
  | _, _ =>
    match addNew [] (domainRefs a ++ domainRefs b) with
    | [only] => only
    | refs =>
      (Json.object [("fields", .arr refs)]).withField? "sort" ((a.field? "sort").or (b.field? "sort"))

def uniteDomains : TieBreaker := fun a b =>
  ⟨unionDomain a.value b.value, a.explicit || b.explicit⟩

def rangeStep? (range : Json) : Option Binary64 :=
  (range.field? "step").bind Json.real?

def largerStep : TieBreaker := fun a b =>
  match rangeStep? a.value, rangeStep? b.value with
  | some x, some y => if x.lt y then b else a
  | none, some _ => b
  | _, none => a

/-- The text of a title: the texts of a list are joined, and other values are written out. -/
def titleText : Json → String
  | .str s => s
  | .arr parts => ", ".intercalate (parts.filterMap Json.text?)
  | other => other.toText

def joinTitles (a b : String) : String :=
  if a.isEmpty || a == b then b
  else if b.isEmpty || (Text.splitAt [',', ' '] a.toList).contains b.toList then a
  else a ++ ", " ++ b

def mergeTitles : TieBreaker := fun a b =>
  ⟨.str (joinTitles (titleText a.value) (titleText b.value)), a.explicit⟩

def preferCircle : TieBreaker := fun a b =>
  if b.value == .str "circle" then b else a

def firstDefined : TieBreaker := fun a b =>
  if a.value.isNull then b else a

/-! ### Components -/

namespace Split

def mergeKeys (tie : String → Option TieBreaker) (owner : String) (a b : Split Json) :
    List String → Split Json → Logged (Split Json)
  | [], acc => pure acc
  | key :: rest, acc => do
    let merged ← Setting.mergeNoted (tie key) owner key (a.setting? key) (b.setting? key)
    match merged with
    | some setting => mergeKeys tie owner a b rest (acc.put key setting)
    | none => mergeKeys tie owner a b rest acc

/-- Merges two components of a kind, property by property in the order of the names. -/
def merge (tie : String → Option TieBreaker) (owner : String) (a b : Split Json) :
    Logged (Split Json) :=
  mergeKeys tie owner a b (NameSet.ofList (a.keys ++ b.keys)) {}

end Split

end ChartPlan
