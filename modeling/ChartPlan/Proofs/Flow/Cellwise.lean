import Mathlib
import ChartPlan.Flow.Node

/-!
# Nodes inside cells and over the whole data

A facet splits rows into cells by the values of its fields. A node that works on each row separately,
or on each group of rows that agree on fields among which are the facet fields, may as well run over
the whole data: the cells of what it gives are what it gives in the cells.

* `Node.isRowwise`, `Node.groups`, `Node.isWhole`: the kinds of nodes that transform rows;
* `Engine`: what is known of the way in which nodes change rows;
* `Engine.perm_cell_run`: a node that groups by the facet fields runs before the split as after it;
* `Engine.perm_cell_addDimensions`: so does a node to which the facet fields are added.
-/

namespace ChartPlan.Flow

open List

namespace Node

def isRowwise : Node → Bool
  | .parse _ | .formula _ | .filter _ | .filterInvalid _ | .timeUnit _ | .identifier | .lookup _
  | .fold _ | .flatten _ | .geoPoint _ => true
  | _ => false

/-- Whether the node looks at all rows at once, whatever fields they are grouped by elsewhere. Nodes
that make the rows, and facets, count as such. -/
def isWhole : Node → Bool
  | .source _ | .sequence _ | .graticule _ | .facet _ | .bin _ | .pivot _ | .sample _ | .impute _
  | .estimation _ | .extent _ | .geoJson _ => true
  | _ => false

def groupFields : Node → List String
  | .aggregate a => a.dimensions
  | .joinAggregate j => j.groupby
  | .window w => w.spec.groupby
  | .stack s => s.groupby ++ s.facetby
  | _ => []

def Leaves (n : Node) (field : String) : Prop :=
  ∃ names, n.produced? = some names ∧ field ∉ names

theorem kind_of_not_isOutput {n : Node} (h : n.isOutput = false) :
    n.isRowwise ∨ n.groups ∨ n.isWhole := by
  cases n <;> first | exact .inl rfl | exact .inr (.inl rfl) | exact .inr (.inr rfl) | cases h

end Node

theorem mem_appendNew {fields more : List String} {field : String} :
    field ∈ appendNew fields more ↔ field ∈ fields ∨ field ∈ more := by
  unfold appendNew
  induction more generalizing fields with
  | nil => simp
  | cons first rest ih =>
    rw [foldl_cons, ih, mem_cons]
    split
    · rename_i hknown
      rw [contains_iff_mem] at hknown
      refine ⟨fun h => h.imp id .inr, fun h => ?_⟩
      rcases h with h | rfl | h
      · exact .inl h
      · exact .inl hknown
      · exact .inr h
    · rw [mem_append, mem_singleton, or_assoc]

theorem appendNew_append (fields more last : List String) :
    appendNew (appendNew fields more) last = appendNew fields (more ++ last) :=
  foldl_append.symm

namespace Node

variable (fields more : List String) (n : Node)

theorem addDimensions_nil : n.addDimensions [] = n := by
  cases n with
  | stack s =>
    show Node.stack { s with facetby := s.facetby ++ [] } = .stack s
    rw [append_nil]
  | _ => rfl

theorem addDimensions_append :
    (n.addDimensions fields).addDimensions more = n.addDimensions (fields ++ more) := by
  cases n with
  | aggregate a =>
    have hdims : (a.dimensions.extend fields).extend more = a.dimensions.extend (fields ++ more) :=
      foldl_append.symm
    exact congrArg (fun dims => Node.aggregate { a with dimensions := dims }) hdims
  | joinAggregate j =>
    exact congrArg (fun by_ => Node.joinAggregate { j with groupby := by_ })
      (appendNew_append j.groupby fields more)
  | window w =>
    exact congrArg (fun by_ => Node.window ⟨{ w.spec with groupby := by_ }⟩)
      (appendNew_append w.spec.groupby fields more)
  | stack s =>
    exact congrArg (fun by_ => Node.stack { s with facetby := by_ })
      (append_assoc s.facetby fields more)
  | _ => rfl

theorem produced?_addDimensions : (n.addDimensions fields).produced? = n.produced? := by
  cases n <;> rfl

theorem groups_addDimensions : (n.addDimensions fields).groups = n.groups := by
  cases n <;> rfl

theorem isOutput_addDimensions : (n.addDimensions fields).isOutput = n.isOutput := by
  cases n <;> rfl

theorem isFacet_addDimensions : (n.addDimensions fields).isFacet = n.isFacet := by
  cases n <;> rfl

variable {fields more n}

theorem addDimensions_of_not_groups (h : n.groups = false) : n.addDimensions fields = n := by
  cases n <;> first | rfl | cases h

theorem mem_groupFields_addDimensions (h : n.groups) {field : String} :
    field ∈ (n.addDimensions fields).groupFields ↔ field ∈ n.groupFields ∨ field ∈ fields := by
  cases n with
  | aggregate a => exact NameSet.mem_extend
  | joinAggregate j => exact mem_appendNew
  | window w => exact mem_appendNew
  | stack s =>
    show field ∈ s.groupby ++ (s.facetby ++ fields) ↔ field ∈ s.groupby ++ s.facetby ∨ field ∈ fields
    rw [← append_assoc, mem_append]
  | _ => cases h

theorem not_groups_of_isRowwise (h : n.isRowwise) : n.groups = false := by
  cases n <;> first | rfl | cases h

theorem not_groups_of_isWhole (h : n.isWhole) : n.groups = false := by
  cases n <;> first | rfl | cases h

end Node

/-! ### Engines -/

/-- How nodes change rows, as far as it matters here. A row has a value in each field, and fields can
be taken out of it. -/
structure Engine (Row Value : Type) [DecidableEq Value] where
  value : Row → String → Value
  without : List String → Row → Row
  run : Node → List Row → List Row
  /-- A node that works on each row separately puts rows in the place of a row. They have its values
  except in the fields that the node writes. -/
  rowwise {n : Node} : n.isRowwise → ∃ each : Row → List Row, (∀ rows, run n rows = rows.flatMap each) ∧
    ∀ row, ∀ r ∈ each row, ∀ field, n.Leaves field → value r field = value row field
  /-- A node that groups works on each group separately, as long as it leaves the fields alone by which
  it groups. -/
  grouped {n : Node} : n.groups → (∀ field ∈ n.groupFields, n.Leaves field) → ∀ rows key,
    (run n rows).filter (fun r => n.groupFields.map (value r) = key) =
      run n (rows.filter fun r => n.groupFields.map (value r) = key)
  /-- Further grouping fields in which all rows agree make no difference outside of these fields. -/
  uniform {n : Node} : n.groups → ∀ fields rows key, rows ≠ [] →
    (∀ r ∈ rows, fields.map (value r) = key) →
    (run (n.addDimensions fields) rows).map (without fields) = (run n rows).map (without fields)

namespace Engine

variable {Row Value : Type} [DecidableEq Value] (e : Engine Row Value) {n : Node}
  {fields : List String}

def cell (fields : List String) (key : List Value) (rows : List Row) : List Row :=
  rows.filter fun r => fields.map (e.value r) = key

variable {e}

theorem mem_cell {key : List Value} {rows : List Row} {r : Row} :
    r ∈ e.cell fields key rows ↔ r ∈ rows ∧ fields.map (e.value r) = key := by
  simp [cell]

theorem cell_comm (more : List String) (key other : List Value) (rows : List Row) :
    e.cell more other (e.cell fields key rows) = e.cell fields key (e.cell more other rows) := by
  simp only [cell, filter_filter, Bool.and_comm]

theorem map_value_congr {more : List String} (hsub : ∀ field ∈ fields, field ∈ more) {r s : Row}
    (h : more.map (e.value r) = more.map (e.value s)) :
    fields.map (e.value r) = fields.map (e.value s) :=
  map_congr_left fun field hfield => map_inj_left.mp h field (hsub field hfield)

theorem perm_of_cells (e : Engine Row Value) (fields : List String) {left right : List Row}
    (h : ∀ key, e.cell fields key left = e.cell fields key right) : left.Perm right := by
  classical
  refine perm_iff_count.mpr fun r => ?_
  have hcount := congrArg (List.count r) (h (fields.map (e.value r)))
  unfold cell at hcount
  rwa [count_filter (by simp), count_filter (by simp)] at hcount

theorem cell_run_of_isRowwise (hn : n.isRowwise) (hleaves : ∀ field ∈ fields, n.Leaves field)
    (key : List Value) (rows : List Row) :
    e.cell fields key (e.run n rows) = e.run n (e.cell fields key rows) := by
  obtain ⟨each, hrun, hvalue⟩ := e.rowwise hn
  have hkey : ∀ row, ∀ r ∈ each row, fields.map (e.value r) = fields.map (e.value row) :=
    fun row r hr => map_congr_left fun field hfield => hvalue row r hr field (hleaves field hfield)
  rw [hrun, hrun]
  induction rows with
  | nil => rfl
  | cons row rest ih =>
    have hrow : e.cell fields key (each row) =
        if fields.map (e.value row) = key then each row else [] := by
      split
      · rename_i h
        exact filter_eq_self.mpr fun r hr => decide_eq_true ((hkey row r hr).trans h)
      · rename_i h
        exact filter_eq_nil_iff.mpr fun r hr => by simpa [hkey row r hr] using h
    unfold cell at ih hrow ⊢
    rw [flatMap_cons, filter_append, ih, hrow, filter_cons]
    split
    · rename_i h
      rw [if_pos (decide_eq_true h), flatMap_cons]
    · rename_i h
      rw [if_neg (by simpa using h), nil_append]

theorem run_nil (hn : n.groups) (hleaves : ∀ field ∈ n.groupFields, n.Leaves field)
    (hfields : n.groupFields ≠ []) : e.run n [] = [] := by
  have hrun := e.grouped hn hleaves [] []
  rw [filter_nil] at hrun
  rw [← hrun]
  exact filter_eq_nil_iff.mpr fun r _ => by simpa using hfields

theorem perm_cell_run (hn : n.groups) (hleaves : ∀ field ∈ n.groupFields, n.Leaves field)
    (hfields : fields ≠ []) (hsub : ∀ field ∈ fields, field ∈ n.groupFields) (key : List Value)
    (rows : List Row) : (e.cell fields key (e.run n rows)).Perm (e.run n (e.cell fields key rows)) := by
  have hsome : n.groupFields ≠ [] := by
    obtain ⟨field, hfield⟩ := exists_mem_of_ne_nil fields hfields
    exact ne_nil_of_mem (hsub field hfield)
  have hgroup : ∀ group rows, e.cell n.groupFields group (e.run n rows) =
      e.run n (e.cell n.groupFields group rows) := fun group rows => e.grouped hn hleaves rows group
  refine perm_of_cells e n.groupFields fun group => ?_
  rw [hgroup, cell_comm n.groupFields key group (e.run n rows), hgroup,
    cell_comm n.groupFields key group rows]
  -- A group is in the cell as a whole or not at all.
  cases hrows : e.cell n.groupFields group rows with
  | nil =>
    show e.cell fields key (e.run n []) = e.run n []
    rw [run_nil hn hleaves hsome]
    rfl
  | cons r rest =>
    have hin : ∀ s, s ∈ r :: rest ∨ s ∈ e.run n (r :: rest) →
        fields.map (e.value s) = fields.map (e.value r) := by
      rw [← hrows]
      intro s hs
      have hr : n.groupFields.map (e.value r) = group := (mem_cell.mp (hrows ▸ mem_cons_self)).2
      rw [← hgroup] at hs
      exact map_value_congr hsub ((hs.elim (fun h => (mem_cell.mp h).2) fun h => (mem_cell.mp h).2).trans
        hr.symm)
    by_cases hkey : fields.map (e.value r) = key
    · have hall : e.cell fields key (r :: rest) = r :: rest :=
        filter_eq_self.mpr fun s hs => decide_eq_true ((hin s (.inl hs)).trans hkey)
      rw [hall]
      exact filter_eq_self.mpr fun s hs => decide_eq_true ((hin s (.inr hs)).trans hkey)
    · have hnone : e.cell fields key (r :: rest) = [] :=
        filter_eq_nil_iff.mpr fun s hs => by simpa [hin s (.inl hs)] using hkey
      rw [hnone, run_nil hn hleaves hsome]
      exact filter_eq_nil_iff.mpr fun s hs => by simpa [hin s (.inr hs)] using hkey

/-- A node that works on each row separately or groups may leave the cells, if it groups by the facet
fields then: apart from these fields each cell keeps its rows. -/
theorem perm_cell_addDimensions (hn : n.isRowwise ∨ n.groups) (hfields : fields ≠ [])
    (hleaves : ∀ field, field ∈ fields ∨ field ∈ n.groupFields → n.Leaves field) {key : List Value}
    {rows : List Row} (hcell : e.cell fields key rows ≠ []) :
    ((e.cell fields key (e.run (n.addDimensions fields) rows)).map (e.without fields)).Perm
      ((e.run n (e.cell fields key rows)).map (e.without fields)) := by
  rcases hn with hn | hn
  · rw [Node.addDimensions_of_not_groups (Node.not_groups_of_isRowwise hn),
      cell_run_of_isRowwise hn fun field hfield => hleaves field (.inl hfield)]
  · have hgroups : (n.addDimensions fields).groups := by rwa [Node.groups_addDimensions]
    have hmore : ∀ field ∈ (n.addDimensions fields).groupFields,
        (n.addDimensions fields).Leaves field := by
      intro field hfield
      unfold Node.Leaves
      rw [Node.produced?_addDimensions]
      exact hleaves field ((Node.mem_groupFields_addDimensions hn).mp hfield).symm
    have hperm := perm_cell_run (e := e) hgroups hmore hfields
      (fun field hfield => (Node.mem_groupFields_addDimensions hn).mpr (.inr hfield)) key rows
    rw [← e.uniform hn fields _ key hcell fun r hr => (mem_cell.mp hr).2]
    exact hperm.map _

def heads {Key : Type} [DecidableEq Key] (key : Row → Key) : List Row → List Row
  | [] => []
  | row :: rest => row :: (heads key rest).filter fun r => key r ≠ key row

section

variable {Key : Type} [DecidableEq Key] {key : Row → Key}

theorem mem_of_mem_heads {row : Row} {rows : List Row} (h : row ∈ heads key rows) : row ∈ rows := by
  induction rows with
  | nil => exact h
  | cons first rest ih =>
    rcases mem_cons.mp h with h | h
    · exact h ▸ mem_cons_self
    · exact mem_cons_of_mem first (ih (mem_filter.mp h).1)

theorem filter_heads (k : Key) (rows : List Row) :
    (heads key rows).filter (fun r => key r = k) = heads key (rows.filter fun r => key r = k) := by
  induction rows with
  | nil => rfl
  | cons first rest ih =>
    by_cases hk : key first = k
    · rw [filter_cons_of_pos (by simpa using hk), heads, heads, ← ih,
        filter_cons_of_pos (by simpa using hk), filter_filter, filter_filter]
      simp only [Bool.and_comm]
    · rw [filter_cons_of_neg (by simpa using hk), heads,
        filter_cons_of_neg (by simpa using hk), filter_filter, ← ih]
      refine filter_congr fun r _ => ?_
      by_cases hr : key r = k
      · simp [hr, Ne.symm hk]
      · simp [hr]

theorem heads_congr {Other : Type} [DecidableEq Other] {other : Row → Other} {rows : List Row}
    (h : ∀ r ∈ rows, ∀ s ∈ rows, other r = other s ↔ key r = key s) :
    heads other rows = heads key rows := by
  induction rows with
  | nil => rfl
  | cons first rest ih =>
    rw [heads, ih fun r hr s hs => h r (mem_cons_of_mem _ hr) s (mem_cons_of_mem _ hs)]
    refine congrArg (first :: ·) (filter_congr fun r hr => ?_)
    have hsame := h r (mem_cons_of_mem _ (mem_of_mem_heads hr)) first mem_cons_self
    simp [hsame]

end

/-- A small engine on rows of numbers: a sample takes the first rows, nodes that group give the first row
of each group, and all others pass the rows on. -/
def small : Engine (String → Nat) Nat where
  value r field := r field
  without fields r field := if field ∈ fields then 0 else r field
  run n rows :=
    if n.groups then heads (fun r => n.groupFields.map r) rows
    else
      match n with
      | .sample s => rows.take s.size
      | _ => rows
  rowwise {n} hn := by
    refine ⟨fun row => [row], fun rows => ?_, fun row r hr field _ => ?_⟩
    · have hself : rows = rows.flatMap fun row => [row] := by simp
      cases n <;> first | exact hself | cases hn
    · rw [mem_singleton.mp hr]
  grouped {n} hn _ rows key := by
    rw [if_pos hn, if_pos hn]
    exact filter_heads key rows
  uniform {n} hn fields rows key _ hrows := by
    have hkeys : ∀ r ∈ rows, ∀ s ∈ rows, (n.addDimensions fields).groupFields.map r =
        (n.addDimensions fields).groupFields.map s ↔ n.groupFields.map r = n.groupFields.map s := by
      intro r hr s hs
      have hsame := map_inj_left.mp ((hrows r hr).trans (hrows s hs).symm)
      simp only [map_inj_left, Node.mem_groupFields_addDimensions hn]
      exact ⟨fun h field hfield => h field (.inl hfield),
        fun h field hfield => hfield.elim (h field) (hsame field)⟩
    rw [if_pos hn, if_pos (by rwa [Node.groups_addDimensions]), heads_congr hkeys]

end Engine

end ChartPlan.Flow
