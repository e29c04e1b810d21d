import ChartPlan.Flow.Pass.Prune
import ChartPlan.Proofs.Flow.Scope
import ChartPlan.Proofs.Flow.Traversal
import ChartPlan.Proofs.Json.Text

/-!
# Writing datasets

While datasets are written, a draft stands for all transforms on the way to the node that comes next,
partly in datasets that were written before. Whatever names the user gives, a dataset is written after
the one that it starts from, in the same cell, and what outputs and facets are told are names of
datasets in their cells, or of the cells themselves.

* `Dataset.Closed`: every dataset of a cell starts from one there.
* `Draft.Stands`: what a draft stands for.
* `Writing.Writes`: what the walk over a part of the forest does to the state of writing, and
  `Writes.trans`: one part after the other.
* `Sound.write`, `Sound.close`: a dataset that is written offers what its draft stood for.
-/

namespace ChartPlan.Flow

open Forest Dataset List Option

/-! ### Told nodes -/

/-- A node without what it is told while datasets are written. -/
def Node.untold : Node → Node
  | .output o => .output { o with source := "" }
  | .facet m => .facet { m with data := none }
  | n => n

/-- `g` is `f`, in which outputs and facets were told their datasets. -/
structure Told (f g : Forest) : Prop where
  edges : g.edges = f.edges
  outputs : g.outputs = f.outputs
  signals : g.signals = f.signals
  length : g.slots.length = f.slots.length
  node : ∀ i, (g.node? i).map Node.untold = (f.node? i).map Node.untold

namespace Told

variable {f g : Forest} {i : NodeId}

theorem refl (f : Forest) : Told f f :=
  ⟨rfl, rfl, rfl, rfl, fun _ => rfl⟩

variable (h : Told f g)

include h

theorem symm : Told g f :=
  ⟨h.edges.symm, h.outputs.symm, h.signals.symm, h.length.symm, fun i => (h.node i).symm⟩

theorem exists_node {n : Node} (hn : f.node? i = some n) :
    ∃ n', g.node? i = some n' ∧ n'.untold = n.untold := by
  have hi := h.node i
  rw [hn] at hi
  exact map_eq_some_iff.mp hi

theorem node_eq {n : Node} (hn : f.node? i = some n) (houtput : n.isOutput = false)
    (hfacet : n.isFacet = false) : g.node? i = some n := by
  obtain ⟨n', hn', huntold⟩ := h.exists_node hn
  rw [hn']
  cases n with
  | output o => cases houtput
  | facet m => cases hfacet
  | _ =>
    cases n' <;> first
      | exact congrArg some huntold
      | cases huntold

theorem node_output {o : Output} (hn : f.node? i = some (.output o)) :
    ∃ source, g.node? i = some (.output { o with source := source }) := by
  obtain ⟨n', hn', huntold⟩ := h.exists_node hn
  cases n' with
  | output o' =>
    refine ⟨o'.source, hn'.trans ?_⟩
    cases o
    cases o'
    simp_all [Node.untold]
  | _ => cases huntold

theorem node_facet {m : Facet} (hn : f.node? i = some (.facet m)) :
    ∃ data, g.node? i = some (.facet { m with data := data }) := by
  obtain ⟨n', hn', huntold⟩ := h.exists_node hn
  cases n' with
  | facet m' =>
    refine ⟨m'.data, hn'.trans ?_⟩
    cases m
    cases m'
    simp_all [Node.untold]
  | _ => cases huntold

theorem modify (i : NodeId) {change : Node → Node}
    (hchange : ∀ n, g.node? i = some n → (change n).untold = n.untold) :
    Told f (g.modify i change) where
  edges := h.edges
  outputs := h.outputs
  signals := h.signals
  length := (length_modify _ _ _).trans h.length
  node j := by
    rw [← h.node j, node?_modify]
    split
    · rename_i hj
      subst hj
      cases hn : g.node? j with
      | none => rfl
      | some n => exact congrArg some (hchange n hn)
    · rfl

end Told

/-! ### Numbered names -/

def numbered (k : Nat) : String :=
  "data_" ++ toString k

theorem numbered_injective {j k : Nat} (h : numbered j = numbered k) : j = k :=
  toString_injective ((String.append_right_inj _).mp h)

/-! ### Visible names -/

namespace Dataset

/-- Whether a name can be referred to in a cell: it is that of a dataset there, or of the cell. -/
def Visible (datasets : List Json) (cell : Option String) (name : String) : Prop :=
  name ∈ names datasets ∨ cell = some name

/-- Whether every dataset of a cell starts from one that is visible there. -/
def Closed (datasets : List Json) (cell : Option String) : Prop :=
  ∀ d ∈ datasets, ∀ v, d.field? "source" = some v →
    ∃ source, v = .str source ∧ Visible datasets cell source

variable {datasets more : List Json} {cell : Option String} {name : String}

theorem Visible.append (h : Visible datasets cell name) (more : List Json) :
    Visible (datasets ++ more) cell name :=
  h.imp_left fun hname => names_append ▸ mem_append_left _ hname

theorem Closed.append (h : Closed datasets cell)
    (hmore : ∀ d ∈ more, ∀ v, d.field? "source" = some v →
      ∃ source, v = .str source ∧ Visible (datasets ++ more) cell source) :
    Closed (datasets ++ more) cell := by
  intro d hd v hv
  rcases mem_append.mp hd with hd | hd
  · obtain ⟨source, rfl, hvisible⟩ := h d hd v hv
    exact ⟨source, rfl, hvisible.append more⟩
  · exact hmore d hd v hv

theorem source_object (name source transform : Json) :
    (Json.object [("name", name), ("source", source), ("transform", transform)]).field? "source" =
      some source := by
  unfold Json.object
  rw [Json.field?_obj]
  simp [Dict.ofList, Dict.extend, Dict.get?_insert]

end Dataset

theorem Facet.source_of_mem_datasets {m : Facet} {data : String} {d v : Json}
    (hdata : m.data = some data) (hd : d ∈ m.datasets) (hv : d.field? "source" = some v) :
    ∃ source, v = .str source ∧ (source = data ∨ source ∈ names m.datasets) := by
  have hheader : ∀ (channel : FacetChannel) (sized : Option String),
      d = m.header (m.crossed?.map Prod.fst) channel sized →
      ∃ source, v = .str source ∧ (source = data ∨ source ∈ names m.datasets) := by
    rintro channel sized rfl
    unfold Facet.header at hv
    rw [source_object, hdata] at hv
    refine ⟨_, (Option.some.inj hv).symm, ?_⟩
    rw [names_datasets]
    cases hcrossed : m.crossed? with
    | none => exact .inl rfl
    | some entry => exact .inr (mem_append_left _ mem_cons_self)
  have hcross : d ∈ (m.crossed?.map Prod.snd).toList → v = .str data := by
    intro hmem
    unfold crossed? at hmem
    split at hmem
    · split at hmem
      · cases hmem
      · rw [map_some, toList_some, mem_singleton] at hmem
        rw [hmem, source_object, hdata] at hv
        exact (Option.some.inj hv).symm
    · cases hmem
  rcases mem_append.mp hd with hd | hd
  · exact ⟨data, hcross hd, .inl rfl⟩
  · obtain ⟨⟨channel, sized⟩, -, hchannel⟩ := mem_filterMap.mp hd
    obtain ⟨c, -, rfl⟩ := map_eq_some_iff.mp hchannel
    exact hheader c sized rfl

/-! ### What a draft stands for -/

/-- The dataset at the end of a lineage, when there is one, loads coerced fields. -/
def Loads (origin : Option Json) (kinds : Dict String) : Prop :=
  kinds ≠ [] → origin.bind loaded? = some (.textFields kinds)

/-- Some way back from a name has all the transforms, and loads the coerced fields. -/
def Dataset.Offers (datasets : List Json) (cell : Option String) (name : String) (records : List Json)
    (kinds : Dict String) : Prop :=
  ∃ origin, Descent datasets cell name origin records ∧ Loads origin kinds

namespace Dataset.Offers

variable {datasets : List Json} {cell : Option String} {name : String} {records : List Json}
  {kinds : Dict String}

theorem append (h : Offers datasets cell name records kinds) (more : List Json) :
    Offers (datasets ++ more) cell name records kinds :=
  h.imp fun _ => And.imp_left fun hdescent => hdescent.append more

theorem visible (h : Offers datasets cell name records kinds) : Visible datasets cell name := by
  obtain ⟨origin, hdescent, -⟩ := h
  cases hdescent with
  | boundary hcell => exact .inr hcell
  | origin hd hname _ | derived hd hname _ _ => exact .inl (mem_names.mpr ⟨_, hd, hname⟩)

end Dataset.Offers

/-- A draft stands for transforms and loaded coercions: it is the dataset of a root, or goes on from
a dataset that was written. -/
inductive Draft.Stands (written : List Json) (cell : Option String) :
    Draft → List Json → Dict String → Prop
  | root {name descriptor records kinds} : Tidy descriptor →
      (kinds ≠ [] → ((descriptor.get? "format").bind fun format => format.field? "parse") =
        some (.textFields kinds)) →
      Stands written cell ⟨some name, none, descriptor, records⟩ records kinds
  | derived {source above records kinds} : Offers written cell source above kinds →
      Stands written cell ⟨none, some source, [], records⟩ (above ++ records) kinds

theorem Draft.name_withLoaded (d : Draft) (kinds : Dict String) :
    (d.withLoaded kinds).name = d.name := by
  unfold Draft.withLoaded
  split <;> rfl

theorem Draft.source_withLoaded (d : Draft) (kinds : Dict String) :
    (d.withLoaded kinds).source = d.source := by
  unfold Draft.withLoaded
  split <;> rfl

namespace Draft.Stands

variable {written : List Json} {cell : Option String} {d : Draft} {records : List Json}
  {kinds : Dict String}

theorem append (h : d.Stands written cell records kinds) (more : List Json) :
    (d.append more).Stands written cell (records ++ more) kinds := by
  cases h with
  | root htidy hloaded => exact .root htidy hloaded
  | derived hoffers =>
    rw [append_assoc]
    exact .derived hoffers

theorem ofOffers {name : String} (h : Offers written cell name records kinds) :
    (Draft.derived name).Stands written cell records kinds := by
  have hstands : Stands written cell ⟨none, some name, [], []⟩ (records ++ []) kinds := .derived h
  rwa [append_nil] at hstands

theorem reference (h : d.Stands written cell records kinds) {source : String}
    (href : d.reference? = some source) :
    d = .derived source ∧ Offers written cell source records kinds := by
  unfold Draft.reference? at href
  split at href
  · rename_i hempty
    cases h with
    | root _ _ => cases href
    | derived hoffers =>
      cases href
      cases isEmpty_iff.mp hempty
      rw [append_nil]
      exact ⟨rfl, hoffers⟩
  · cases href

theorem withLoaded (h : d.Stands written cell records kinds) (hsource : d.source = none)
    (more : Dict String) :
    (d.withLoaded more).Stands written cell records (if more.isEmpty then kinds else more) := by
  unfold Draft.withLoaded
  cases hmore : more.isEmpty with
  | true => simpa using h
  | false =>
    cases h with
    | root htidy _ =>
      refine .root (htidy.insert _ (by decide)) fun _ => ?_
      simp [Dict.get?_insert, Json.field?_obj]
    | derived _ => cases hsource

end Draft.Stands

/-! ### The state of writing -/

namespace Writing

/-- The state of writing in a cell of `f`, or outside of all cells. -/
structure Sound (f : Forest) (cell : Option String) (w : Writing) : Prop where
  told : Told f w.forest
  closed : Closed w.written cell

/-- The datasets of a cell, when datasets are just being written for the cell `here`. -/
def datasetsOf (w : Writing) (here cell : Option String) : Option (List Json) :=
  if cell = here then some w.written
  else cell.bind fun name => (w.cells.get? name).map CellData.datasets

/-- An output was told a dataset that offers what is on its track, a facet one that is visible where it
is; the headers of a facet are written there, and its cells are closed. -/
structure Grounds (f : Forest) (here : Option String) (w : Writing) (i : NodeId)
    (datasets : List Json) : Prop where
  found : w.datasetsOf here (f.cell? i) = some datasets
  output : ∀ o, f.node? i = some (.output o) → ∃ source,
    w.forest.node? i = some (.output { o with source := source }) ∧
      Offers datasets (f.cell? i) source (f.recordsTo i) (f.loadedTo i)
  facet : ∀ m, f.node? i = some (.facet m) → ∃ data inside,
    w.forest.node? i = some (.facet { m with data := some data }) ∧
      Visible datasets (f.cell? i) data ∧ (∀ name ∈ names m.datasets, name ∈ names datasets) ∧
      w.cells.get? m.name = some ⟨data, inside⟩ ∧ Closed inside (some m.name)

/-- What is done to the state of writing over the nodes of a part of the forest. Only these nodes are
told. -/
structure Writes (f : Forest) (cell : Option String) (part : NodeId → Prop) (w w' : Writing) :
    Prop where
  sound : w'.Sound f cell
  kept : ∃ more, w'.written = w.written ++ more
  nodes : ∀ i, ¬ part i → w'.forest.node? i = w.forest.node? i
  cells : ∀ name, (∀ i m, part i → f.node? i = some (.facet m) → m.name ≠ name) →
    w'.cells.get? name = w.cells.get? name
  grounds : ∀ i, part i → f.holds i endsBranch → ∃ datasets, w'.Grounds f cell i datasets

variable {f : Forest} {cell : Option String} {part part' : NodeId → Prop} {w w' w'' : Writing}
  {d : Draft} {i c : NodeId} {name : String} {records : List Json} {kinds : Dict String}

theorem Sound.stay (h : w.Sound f cell) (hforest : w'.forest = w.forest)
    (hwritten : w'.written = w.written) (hcells : w'.cells = w.cells)
    (hpart : ∀ i, part i → f.holds i endsBranch = false) : Writes f cell part w w' where
  sound := ⟨hforest ▸ h.told, hwritten ▸ h.closed⟩
  kept := ⟨[], by rw [hwritten, append_nil]⟩
  nodes i _ := by rw [hforest]
  cells name _ := by rw [hcells]
  grounds i hi hends := by
    rw [hpart i hi] at hends
    cases hends

theorem Writes.offers (h : Writes f cell part w w') (hname : Offers w.written cell name records kinds) :
    Offers w'.written cell name records kinds := by
  obtain ⟨more, hmore⟩ := h.kept
  rw [hmore]
  exact hname.append more

theorem below_closed (hclosed : ∀ {i c}, part i → c ∈ f.children i → part c) (hi : part i)
    (hb : f.Below i c) : part c := by
  induction hb with
  | refl => exact hi
  | tail _ hstep ih => exact hclosed ih hstep

theorem Grounds.later {datasets : List Json} (hg : w.Grounds f cell i datasets)
    (h : Writes f cell part w w') (hf : f.Linked) (hapart : f.FacetsApart)
    (hclosed : ∀ {i c}, part i → c ∈ f.children i → part c) (hi : ¬ part i) :
    ∃ datasets, w'.Grounds f cell i datasets := by
  have hnode := h.nodes i hi
  -- The datasets of the cell are still there, perhaps with more behind them.
  have hmore : ∃ more, w'.datasetsOf cell (f.cell? i) = some (datasets ++ more) := by
    have hdatasets := hg.found
    unfold datasetsOf at hdatasets ⊢
    split at hdatasets
    · rename_i hcell
      cases hdatasets
      rw [if_pos hcell]
      exact h.kept.imp fun _ he => congrArg some he
    · rename_i hcell
      obtain ⟨name, hname, hcells⟩ := bind_eq_some_iff.mp hdatasets
      refine ⟨[], ?_⟩
      rw [if_neg hcell, hname, append_nil]
      show (w'.cells.get? name).map CellData.datasets = _
      rw [h.cells name fun j m hj hm he => ?_]
      · exact hcells
      · obtain ⟨k, m', c, hm', hname', hc, hb⟩ := hf.facet_of_cell? hname
        cases hapart hm hm' (he.trans hname'.symm)
        exact hi (below_closed hclosed (hclosed hj hc) hb)
  obtain ⟨more, hmore⟩ := hmore
  refine ⟨_, hmore, fun o ho => ?_, fun m hm => ?_⟩
  · obtain ⟨source, hsource, hoffers⟩ := hg.output o ho
    exact ⟨source, hnode.trans hsource, hoffers.append more⟩
  · obtain ⟨data, inside, hdata, hvisible, hheaders, hcells, hinside⟩ := hg.facet m hm
    refine ⟨data, inside, hnode.trans hdata, hvisible.append more, fun name hname => ?_, ?_, hinside⟩
    · exact names_append ▸ mem_append_left _ (hheaders name hname)
    · rw [h.cells m.name fun j m' hj hm' he => hi (hapart hm' hm he ▸ hj)]
      exact hcells

theorem Writes.trans (h : Writes f cell part w w') (h' : Writes f cell part' w' w'')
    (hf : f.Linked) (hapart : f.FacetsApart)
    (hclosed : ∀ {i c}, part' i → c ∈ f.children i → part' c) :
    Writes f cell (fun i => part i ∨ part' i) w w'' where
  sound := h'.sound
  kept := by
    obtain ⟨more, hmore⟩ := h.kept
    obtain ⟨more', hmore'⟩ := h'.kept
    exact ⟨more ++ more', by rw [hmore', hmore, append_assoc]⟩
  nodes i hi := (h'.nodes i fun hp => hi (.inr hp)).trans (h.nodes i fun hp => hi (.inl hp))
  cells name hname := (h'.cells name fun i m hi => hname i m (.inr hi)).trans
    (h.cells name fun i m hi => hname i m (.inl hi))
  grounds i hi hends := by
    by_cases hi' : part' i
    · exact h'.grounds i hi' hends
    · obtain ⟨datasets, hg⟩ := h.grounds i (hi.resolve_right hi') hends
      exact hg.later h' hf hapart hclosed hi'

theorem Writes.weaken (h : Writes f cell part w w') (hpart : ∀ i, part i → part' i)
    (hrest : ∀ i, part' i → part i ∨ f.holds i endsBranch = false) : Writes f cell part' w w' where
  sound := h.sound
  kept := h.kept
  nodes i hi := h.nodes i fun hp => hi (hpart i hp)
  cells name hname := h.cells name fun i m hi => hname i m (hpart i hi)
  grounds i hi hends := by
    rcases hrest i hi with hi | hnot
    · exact h.grounds i hi hends
    · rw [hnot] at hends
      cases hends

/-! ### New datasets -/

theorem Sound.push (h : w.Sound f cell) (htidy : Tidy d.descriptor) (count : Nat)
    (hsource : ∀ source, d.source = some source → Visible w.written cell source) :
    Writes f cell (fun _ => False) w { w with count := count, written := w.written ++ [d.toJson] } := by
  refine ⟨⟨h.told, h.closed.append fun e he v hv => ?_⟩, ⟨_, rfl⟩, fun _ _ => rfl, fun _ _ => rfl,
    fun _ hi => hi.elim⟩
  rw [mem_singleton.mp he, Draft.source_toJson htidy] at hv
  obtain ⟨source, hes, rfl⟩ := map_eq_some_iff.mp hv
  exact ⟨source, rfl, (hsource source hes).append _⟩

theorem Sound.write (h : w.Sound f cell) (hd : d.Stands w.written cell records kinds) :
    Writes f cell (fun _ => False) w ((w.name d).1.push (w.name d).2.1) ∧
      Offers ((w.name d).1.push (w.name d).2.1).written cell (w.name d).2.2 records kinds := by
  cases hd with
  | @root name descriptor records kinds htidy hloaded =>
    have htidy' : Tidy (Draft.mk (some name) none descriptor records).descriptor := htidy
    refine ⟨h.push htidy' w.count fun _ hs => (nomatch hs),
      some (Draft.mk (some name) none descriptor records).toJson, ?_, fun hkinds =>
        (Draft.loaded?_toJson htidy').trans (hloaded hkinds)⟩
    have horigin : Descent _ cell _ _ _ := .origin
      (mem_append_right w.written (mem_singleton_self _)) (Draft.name?_toJson htidy') (Draft.source?_toJson htidy')
    rwa [Draft.transforms_toJson htidy'] at horigin
  | @derived source above records kinds hoffers =>
    have htidy : Tidy (Draft.mk (some (numbered w.count)) (some source) [] records).descriptor := .nil
    have hwrites := h.push htidy (w.count + 1) fun source' hs => Option.some.inj hs ▸ hoffers.visible
    obtain ⟨origin, hdescent, hloads⟩ := hwrites.offers hoffers
    refine ⟨hwrites, origin, ?_, hloads⟩
    have hderived := Descent.derived (mem_append_right w.written mem_cons_self)
      (Draft.name?_toJson htidy) (Draft.source?_toJson htidy) hdescent
    rwa [Draft.transforms_toJson htidy] at hderived

theorem close_of_none (h : d.reference? = none) :
    w.close d = ((w.name d).1.push (w.name d).2.1, (w.name d).2.2) := by
  unfold Writing.close
  rw [h]

theorem close_of_some {source : String} (h : d.reference? = some source) :
    w.close d = (w, source) := by
  unfold Writing.close
  rw [h]

theorem Sound.close (h : w.Sound f cell) (hd : d.Stands w.written cell records kinds) :
    Writes f cell (fun _ => False) w (w.close d).1 ∧
      Offers (w.close d).1.written cell (w.close d).2 records kinds := by
  cases href : d.reference? with
  | none =>
    rw [close_of_none href]
    exact h.write hd
  | some source =>
    rw [close_of_some href]
    exact ⟨h.stay rfl rfl rfl fun _ hi => hi.elim, (hd.reference href).2⟩

end Writing

end ChartPlan.Flow
