/-!
# Trees

A tree is a value with a list of trees below it.
-/

namespace ChartPlan

/-- A value with the trees below it, in order. -/
inductive Tree (α : Type) where
  | node (value : α) (children : List (Tree α))

namespace Tree

variable {α : Type}

def value : Tree α → α
  | node v _ => v

def children : Tree α → List (Tree α)
  | node _ ts => ts

def withValue (t : Tree α) (v : α) : Tree α :=
  node v t.children

def childValues (t : Tree α) : List α :=
  t.children.map value

mutual

def preorder : Tree α → List α
  | node v ts => v :: preorders ts

def preorders : List (Tree α) → List α
  | [] => []
  | t :: rest => preorder t ++ preorders rest

end

/-- What holds of a value with the trees below it whenever it holds of these holds of all trees. -/
@[elab_as_elim, induction_eliminator]
theorem induction {P : Tree α → Prop} (node : ∀ v ts, (∀ t ∈ ts, P t) → P (.node v ts)) :
    (t : Tree α) → P t
  | .node v ts => node v ts fun t _ => induction node t

theorem mem_preorders {a : α} {ts : List (Tree α)} : a ∈ preorders ts ↔ ∃ t ∈ ts, a ∈ t.preorder := by
  induction ts with
  | nil => simp [preorders]
  | cons t rest ih => simp [preorders, ih]

theorem preorders_append (ts us : List (Tree α)) : preorders (ts ++ us) = preorders ts ++ preorders us := by
  induction ts with
  | nil => rfl
  | cons t rest ih => rw [List.cons_append, preorders, preorders, ih, List.append_assoc]

end Tree

end ChartPlan
