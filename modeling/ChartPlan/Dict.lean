/-!
# Maps and sets of names

`Dict α` is a finite map from names to values, held as its entries in increasing order of their
names. Names compare by code points. `insert` keeps the order, so a dictionary that is built from
the empty one lists its entries sorted, whatever the order in which they were added.

`NameSet` is a finite set of names, held as the sorted list of its members.

* `Dict.get?_insert`: an insertion is seen at its own name and at no other one.
* `NameSet.mem_insert`: an insertion adds exactly one member.
-/

namespace ChartPlan

/-- A finite map from names to values: its entries, in increasing order of their names. -/
abbrev Dict (α : Type) := List (String × α)

namespace Dict

variable {α β : Type}

def get? : Dict α → String → Option α
  | [], _ => none
  | (k, v) :: rest, key => if key = k then some v else get? rest key

def has (d : Dict α) (key : String) : Bool :=
  (get? d key).isSome

def insert : Dict α → String → α → Dict α
  | [], key, v => [(key, v)]
  | (k, w) :: rest, key, v =>
    if key < k then (key, v) :: (k, w) :: rest
    else if key = k then (key, v) :: rest
    else (k, w) :: insert rest key v

def insertIfNew (d : Dict α) (key : String) (v : α) : Dict α :=
  if has d key then d else insert d key v

def erase (d : Dict α) (key : String) : Dict α :=
  d.filter fun entry => entry.1 != key

def keys (d : Dict α) : List String :=
  d.map Prod.fst

def values (d : Dict α) : List α :=
  d.map Prod.snd

def mapValues (f : α → β) (d : Dict α) : Dict β :=
  d.map fun entry => (entry.1, f entry.2)

def extend (d other : Dict α) : Dict α :=
  other.foldl (fun acc entry => insert acc entry.1 entry.2) d

def ofList (entries : List (String × α)) : Dict α :=
  extend [] entries

@[simp] theorem get?_nil (key : String) : get? ([] : Dict α) key = none := rfl

theorem get?_insert (d : Dict α) (key other : String) (v : α) :
    get? (insert d key v) other = if other = key then some v else get? d other := by
  induction d with
  | nil => simp [insert, get?]
  | cons entry rest ih =>
    obtain ⟨k, w⟩ := entry
    unfold insert
    split
    · simp [get?]
    · split
      · rename_i same
        subst same
        by_cases h : other = key <;> simp [get?, h]
      · rename_i different
        by_cases h : other = k
        · subst h
          simp [get?, Ne.symm different]
        · simp [get?, h, ih]

theorem mem_of_mem_insert {d : Dict α} {key : String} {v : α} {entry : String × α}
    (h : entry ∈ insert d key v) : entry = (key, v) ∨ entry ∈ d := by
  induction d with
  | nil => simpa [insert] using h
  | cons first rest ih =>
    obtain ⟨k, w⟩ := first
    unfold insert at h
    split at h
    · simpa using h
    · split at h
      · rcases List.mem_cons.mp h with h | h
        · exact .inl h
        · exact .inr (List.mem_cons_of_mem _ h)
      · rcases List.mem_cons.mp h with h | h
        · exact .inr (h ▸ List.mem_cons_self)
        · exact (ih h).imp_right (List.mem_cons_of_mem _)

theorem mem_of_get? {d : Dict α} {key : String} {v : α} (h : get? d key = some v) :
    (key, v) ∈ d := by
  induction d with
  | nil => cases h
  | cons entry rest ih =>
    obtain ⟨k, w⟩ := entry
    unfold get? at h
    split at h
    · rename_i same
      cases h
      exact same ▸ List.mem_cons_self
    · exact List.mem_cons_of_mem _ (ih h)

theorem mem_keys {d : Dict α} {key : String} : key ∈ keys d ↔ has d key := by
  induction d with
  | nil => simp [keys, has]
  | cons entry rest ih =>
    obtain ⟨k, w⟩ := entry
    unfold keys has at ih ⊢
    by_cases h : key = k
    · simp [get?, h]
    · simp [get?, h, ih]

theorem get?_erase (d : Dict α) (key other : String) :
    get? (erase d key) other = if other = key then none else get? d other := by
  induction d with
  | nil => simp [erase, get?]
  | cons entry rest ih =>
    obtain ⟨k, w⟩ := entry
    unfold erase at ih ⊢
    by_cases hk : k = key
    · subst hk
      by_cases h : other = k <;> simp_all [get?]
    · by_cases h : other = k
      · subst h
        simp [get?, hk]
      · simp_all [get?]

end Dict

abbrev NameSet := List String

namespace NameSet

def insert : NameSet → String → NameSet
  | [], name => [name]
  | n :: rest, name =>
    if name < n then name :: n :: rest
    else if name = n then n :: rest
    else n :: insert rest name

def extend (s : NameSet) (names : List String) : NameSet :=
  names.foldl insert s

def ofList (names : List String) : NameSet :=
  extend [] names

def disjoint (s t : NameSet) : Bool :=
  s.all fun name => !t.contains name

theorem mem_insert {s : NameSet} {name x : String} :
    x ∈ insert s name ↔ x = name ∨ x ∈ s := by
  induction s with
  | nil => simp [insert]
  | cons n rest ih =>
    unfold insert
    split
    · simp
    · split
      · rename_i same
        simp [same]
      · simp [ih, or_left_comm]

theorem mem_extend {s : NameSet} {names : List String} {x : String} :
    x ∈ extend s names ↔ x ∈ s ∨ x ∈ names := by
  induction names generalizing s with
  | nil => simp [extend]
  | cons n rest ih =>
    have step : extend s (n :: rest) = extend (insert s n) rest := rfl
    rw [step, ih, mem_insert]
    simp [or_assoc, or_left_comm]

theorem mem_ofList {names : List String} {x : String} : x ∈ ofList names ↔ x ∈ names := by
  simp [ofList, mem_extend]

end NameSet

end ChartPlan
