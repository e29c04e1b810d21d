import ChartPlan.Proofs.Flow.Writing

/-!
# The walk that writes datasets

At every node the walk takes the node into a draft, and goes on with the draft at an only child or from
a written dataset at several. What it does below a node is known by induction on its depth; what it
does at a node depends on whether that is an output, a facet or a node with transforms.

* `Ready.take`: a draft that takes a node in.
* `walk_output`: the walk at an output closes the draft.
* `walk_writes`: the walk over a subtree tells every output in it a dataset that offers what is on its
  track. Only the names of facets have to be distinct, because cells are found by them.
-/

namespace ChartPlan.Flow

open Forest Dataset List Option

namespace Writing

variable {f : Forest} {cell : Option String} {part : NodeId → Prop} {w w' w'' : Writing} {d : Draft}
  {i p c : NodeId} {n : Node} {name : String} {fuel : Nat} {o : Output}
  {visit : Writing → NodeId → Draft → Writing}

/-- All is ready for the walk at a node with a draft. -/
structure Ready (f : Forest) (w : Writing) (i : NodeId) (d : Draft) : Prop where
  live : f.contains i
  sound : w.Sound f (f.cell? i)
  stands : d.Stands w.written (f.cell? i) ((f.lead i).flatMap f.recordsAt) ((f.lead i).foldl f.reload [])
  loading : d.source = none ↔ f.unbroken i
  under : ∀ p, f.parent? i = some p → f.holds p Node.isOutput → d.reference?.isSome

/-! ### The nodes below a node -/

theorem Ready.ofOffers (hc : f.contains c) (hw : w.Sound f (f.cell? c))
    (hoffers : Offers w.written (f.cell? c) name ((f.lead c).flatMap f.recordsAt)
      ((f.lead c).foldl f.reload [])) (hbroken : f.unbroken c = false) : Ready f w c (.derived name) where
  live := hc
  sound := hw
  stands := .ofOffers hoffers
  loading := by simp [Draft.derived, hbroken]
  under _ _ _ := rfl

theorem Ready.after (h : Ready f w c (.derived name)) (hwrites : Writes f (f.cell? c) part w w') :
    Ready f w' c (.derived name) where
  live := h.live
  sound := hwrites.sound
  stands := .ofOffers (hwrites.offers (h.stands.reference rfl).2)
  loading := h.loading
  under := h.under

theorem Writes.cons {rest : List NodeId} (h : Writes f cell (f.Below c) w w')
    (h' : Writes f cell (fun j => ∃ r ∈ rest, f.Below r j) w' w'') (hf : f.Linked)
    (hapart : f.FacetsApart) : Writes f cell (fun j => ∃ r ∈ c :: rest, f.Below r j) w w'' := by
  refine (h.trans h' hf hapart fun {j k} => ?_).weaken (fun j => ?_) fun j => ?_
  · rintro ⟨r, hr, hb⟩ hk
    exact ⟨r, hr, hb.step hk⟩
  · rintro (hb | ⟨r, hr, hb⟩)
    · exact ⟨c, mem_cons_self, hb⟩
    · exact ⟨r, mem_cons_of_mem c hr, hb⟩
  · rintro ⟨r, hr, hb⟩
    rcases mem_cons.mp hr with rfl | hr
    · exact .inl (.inl hb)
    · exact .inl (.inr ⟨r, hr, hb⟩)

/-- The walk at a node does what it should, to some depth. -/
def WalksWell (f : Forest) (fuel : Nat) : Prop :=
  ∀ w i d, f.Fits fuel i → Ready f w i d → Writes f (f.cell? i) (f.Below i) w (walk fuel w i d)

theorem WalksWell.foldl (hwalk : WalksWell f fuel) (hf : f.Linked) (hapart : f.FacetsApart)
    {children : List NodeId} (hw : w.Sound f cell)
    (hchildren : ∀ c ∈ children, f.Fits fuel c ∧ f.cell? c = cell ∧ Ready f w c (.derived name)) :
    Writes f cell (fun j => ∃ c ∈ children, f.Below c j) w
      (children.foldl (fun w c => walk fuel w c (.derived name)) w) := by
  induction children generalizing w with
  | nil => exact hw.stay rfl rfl rfl (by simp)
  | cons c rest ih =>
    obtain ⟨hfits, rfl, hready⟩ := hchildren c mem_cons_self
    have hfirst := hwalk w c _ hfits hready
    refine hfirst.cons (ih hfirst.sound fun c' hc' => ?_) hf hapart
    obtain ⟨hfits', hcell', hready'⟩ := hchildren c' (mem_cons_of_mem c hc')
    exact ⟨hfits', hcell', hready'.after (hcell' ▸ hfirst)⟩

theorem Writes.thenBelow (h : Writes f cell (· = i) w w')
    (h' : Writes f cell (fun j => ∃ c ∈ f.children i, f.Below c j) w' w'') (hf : f.Linked)
    (hapart : f.FacetsApart) : Writes f cell (f.Below i) w w'' := by
  refine (h.trans h' hf hapart fun {j k} => ?_).weaken (fun j hj => below_iff.mpr hj)
    fun j hj => .inl (below_iff.mp hj)
  rintro ⟨c, hc, hb⟩ hk
  exact ⟨c, hc, hb.step hk⟩

theorem WalksWell.below (hwalk : WalksWell f fuel) (hf : f.Linked) (hapart : f.FacetsApart)
    (hfits : f.Fits (fuel + 1) i) (h : Writes f (f.cell? i) (· = i) w w')
    (hfacet : f.holds i Node.isFacet = false) (hbroken : ∀ c ∈ f.children i, f.unbroken c = false)
    (hoffers : Offers w'.written (f.cell? i) name (f.recordsTo i) (f.loadedTo i)) :
    Writes f (f.cell? i) (f.Below i) w
      ((f.children i).foldl (fun w c => walk fuel w c (.derived name)) w') := by
  refine h.thenBelow (hwalk.foldl hf hapart h.sound fun c hc => ?_) hf hapart
  have hp : f.parent? c = some i := hf.parent?_of_mem hc
  have hcell : f.cell? c = f.cell? i := hf.cell?_below hp hfacet
  refine ⟨hfits c hc, hcell, .ofOffers (hf.live hc).2 (hcell ▸ h.sound) ?_ (hbroken c hc)⟩
  rw [hcell, hf.lead_below hp hfacet]
  exact hoffers

/-! ### One node -/

/-- What comes of a draft that takes a node in. -/
structure Taken (f : Forest) (w : Writing) (i : NodeId) (n : Node) (r : Writing × Draft) : Prop where
  writes : Writes f (f.cell? i) (fun _ => False) w r.1
  stands : r.2.Stands r.1.written (f.cell? i) (f.recordsTo i) (f.loadedTo i)
  loading : r.2.source = none ↔ f.unbroken i ∧ n.carries

theorem Ready.record (h : Ready f w i d) (hcarries : n.carries) {d' : Draft}
    (hsource : d'.source = d.source) (records : Logged (List Json))
    (hstands : (d'.append records.value).Stands w.written (f.cell? i) (f.recordsTo i) (f.loadedTo i)) :
    Taken f w i n (w.record d' records) where
  writes := h.sound.stay rfl rfl rfl fun _ hi => hi.elim
  stands := hstands
  loading := by
    show d'.source = none ↔ _
    rw [hsource, h.loading]
    simp [hcarries]

theorem take_parse {under : Option Node} {k : Coercion}
    (h : ∀ s, under = some (.source s) → d.source ≠ none) :
    w.take i under (.parse k) d = w.record d k.records := by
  simp only [Writing.take]

theorem Ready.take (h : Ready f w i d) (hn : f.node? i = some n) (houtput : n.isOutput = false)
    (hfacet : n.isFacet = false) :
    Taken f w i n (w.take i ((w.forest.parent? i).bind w.forest.node?) n d) := by
  have htold := h.sound.told
  have hparent : w.forest.parent? i = f.parent? i := parent?_congr htold.edges i
  cases n with
  | output o => cases houtput
  | facet m => cases hfacet
  | source s =>
    have hrecords : f.recordsAt i = [] := by rw [recordsAt, hn]; rfl
    have hloaded : f.loadedAt i = [] := by rw [loadedAt, hn]
    have hstands := h.stands
    rw [← recordsTo_of_nil hrecords, ← loadedTo_of_nil hloaded] at hstands
    cases hremote : s.isRemote with
    | true =>
      simp only [Writing.take, hremote, if_true]
      refine ⟨h.sound.stay rfl rfl rfl fun _ hi => hi.elim, hstands, ?_⟩
      rw [h.loading]
      simp [Node.carries, hremote]
    | false =>
      obtain ⟨hwrites, hoffers⟩ := h.sound.write hstands
      simp only [Writing.take, hremote]
      exact ⟨hwrites, .ofOffers hoffers, by simp [Draft.derived, Node.carries, hremote]⟩
  | parse k =>
    cases hloader : f.atLoader i with
    | true =>
      obtain ⟨hsource, hunbroken⟩ := Bool.and_eq_true_iff.mp hloader
      obtain ⟨p, hp, hholds⟩ := (any_eq_true _ _).mp hsource
      obtain ⟨s, hs⟩ := exists_source hholds
      have hnone : d.source = none := h.loading.mpr hunbroken
      have hunder : (w.forest.parent? i).bind w.forest.node? = some (.source s) := by
        rw [hparent, hp]
        exact htold.node_eq hs rfl rfl
      simp only [Writing.take, hunder, hnone]
      refine h.record rfl (d.source_withLoaded _) _ ?_
      rw [recordsTo_eq, loadedTo_eq, recordsAt, reload, loadedAt, hn]
      simp only [hloader, if_true]
      exact (h.stands.withLoaded hnone _).append _
    | false =>
      rw [take_parse fun s hs hnone => ?_]
      · refine h.record rfl rfl _ ?_
        rw [recordsTo_eq, loadedTo_eq, recordsAt, reload, loadedAt, hn]
        simp only [hloader]
        exact h.stands.append _
      · obtain ⟨p, hp, hs⟩ := bind_eq_some_iff.mp hs
        have hholds : f.holds p Node.isSource := holds_of_node? (htold.symm.node_eq hs rfl rfl)
        have hany : (f.parent? i).any (f.holds · Node.isSource) = true := by
          rw [← hparent, hp]
          exact hholds
        rw [atLoader, hany, h.loading.mp hnone] at hloader
        cases hloader
  | _ =>
    refine h.record rfl rfl _ ?_
    rw [recordsTo_eq, loadedTo_eq, recordsAt, reload, loadedAt, hn, htold.signals]
    exact h.stands.append _

/-! ### The walk at a node -/

theorem walk_node (hn : w.forest.node? i = some n) (hfacet : n.isFacet = false) :
    walk (fuel + 1) w i d =
      descend (walk fuel) (w.take i ((w.forest.parent? i).bind w.forest.node?) n d).1 i n
        (w.take i ((w.forest.parent? i).bind w.forest.node?) n d).2 := by
  unfold walk
  rw [hn]
  split
  · cases ‹some n = none›
  · rename_i m he
    cases he
    cases hfacet
  · rename_i he
    cases he
    rfl

theorem walk_facet {m : Facet} (hn : w.forest.node? i = some (.facet m)) :
    walk (fuel + 1) w i d = splitCells (walk fuel) w i m d := by
  unfold walk
  rw [hn]

theorem descend_fork {c' : NodeId} {rest : List NodeId}
    (hc : w.forest.children i = c :: c' :: rest) : w.descend visit i n d =
      (w.forest.children i).foldl (fun w' child => visit w' child (.derived (w.close d).2))
        (w.close d).1 := by
  unfold descend
  rw [hc]

theorem descend_single (hc : w.forest.children i = [c]) : w.descend visit i n d = visit w c d := by
  unfold descend
  rw [hc]

theorem descend_leaf (hc : w.forest.children i = []) : w.descend visit i n d =
      if n.isOutput && d.reference?.isNone then w.push d else w := by
  unfold descend
  rw [hc]

/-! ### Outputs -/

theorem forest_name (w : Writing) (d : Draft) : (w.name d).1.forest = w.forest := by
  unfold Writing.name
  split <;> rfl

theorem name_name (w : Writing) (d : Draft) : (w.name d).2.1.name = some (w.name d).2.2 := by
  unfold Writing.name
  split
  · assumption
  · rfl

theorem reference?_name (w : Writing) (d : Draft) :
    (w.name d).2.1.reference? = d.reference? := by
  unfold Writing.name
  split <;> rfl

theorem name_of_some (h : d.name = some name) : w.name d = (w, d, name) := by
  unfold Writing.name
  rw [h]

theorem children_setSource (w : Writing) (i j : NodeId) (source : String) :
    (w.setSource i source).forest.children j = w.forest.children j :=
  rfl

theorem descend_told {source : String} :
    (w.setSource i source).descend visit i (.output o) (.derived source) =
      (w.forest.children i).foldl (fun w' c => visit w' c (.derived source))
        (w.setSource i source) := by
  have hchildren := children_setSource w i i source
  cases hc : w.forest.children i with
  | nil => exact descend_leaf (hchildren.trans hc)
  | cons c rest =>
    cases rest with
    | nil => exact descend_single (hchildren.trans hc)
    | cons c' rest =>
      rw [descend_fork (hchildren.trans hc), hchildren, hc]
      rfl

theorem descend_named {under : Option Node} (href : d.reference? = none)
    (hunder : under.any Node.isOutput = false) :
    (w.take i under (.output o) d).1.descend visit i (.output o) (w.take i under (.output o) d).2 =
      (w.forest.children i).foldl (fun w' c => visit w' c (.derived (w.name d).2.2))
        (((w.name d).1.push (w.name d).2.1).setSource i (w.name d).2.2) := by
  have hchildren : ((w.name d).1.setSource i (w.name d).2.2).forest.children i =
      w.forest.children i := by
    rw [children_setSource, forest_name]
  have hcount : ((w.name d).1.setSource i (w.name d).2.2).forest.childCount i =
      (w.forest.children i).length := by
    rw [← length_children, hchildren]
  have href' : (w.name d).2.1.reference? = none := (reference?_name w d).trans href
  simp only [Writing.take, href, hunder, hcount]
  cases hc : w.forest.children i with
  | nil =>
    simp only [length_nil, Bool.not_false, Bool.true_and, Nat.reduceBEq, Bool.false_eq_true,
      if_false]
    rw [descend_leaf (hchildren.trans hc), href']
    rfl
  | cons c rest =>
    cases rest with
    | nil =>
      exact descend_single (hchildren.trans hc)
    | cons c' rest =>
      rw [if_neg (by simp)]
      rw [descend_fork (hchildren.trans hc), close_of_none href', name_of_some (name_name w d),
        hchildren, hc]
      rfl

theorem walk_output (hn : w.forest.node? i = some (.output o))
    (hunder : ((w.forest.parent? i).bind w.forest.node?).any Node.isOutput → d.reference?.isSome)
    (hreference : ∀ source, d.reference? = some source → d = .derived source) :
    walk (fuel + 1) w i d =
      (w.forest.children i).foldl (fun w' c => walk fuel w' c (.derived (w.close d).2))
        ((w.close d).1.setSource i (w.close d).2) := by
  rw [walk_node hn rfl]
  cases href : d.reference? with
  | some source =>
    cases hreference source href
    exact descend_told
  | none =>
    rw [close_of_none href]
    refine descend_named href (Bool.eq_false_iff.mpr fun hany => ?_)
    rw [href] at hunder
    cases hunder hany

theorem Writes.tell (h : Writes f (f.cell? i) (fun _ => False) w w')
    (hn : f.node? i = some (.output o))
    (hoffers : Offers w'.written (f.cell? i) name (f.recordsTo i) (f.loadedTo i)) :
    Writes f (f.cell? i) (· = i) w (w'.setSource i name) := by
  obtain ⟨old, hold⟩ := h.sound.told.node_output hn
  have hnode : ∀ j, (w'.setSource i name).forest.node? j =
      if j = i then some (.output { o with source := name }) else w'.forest.node? j := by
    intro j
    unfold setSource
    rw [node?_modify]
    split
    · rename_i hj
      rw [hj, hold]
      rfl
    · rfl
  have htold : Told f (w'.setSource i name).forest := h.sound.told.modify i fun n hn' => by
    cases hold.symm.trans hn'
    rfl
  refine ⟨⟨htold, h.sound.closed⟩, h.kept, fun j hj => ?_, fun name' _ => ?_, fun j hj _ => ?_⟩
  · rw [hnode, if_neg hj]
    exact h.nodes j id
  · exact h.cells name' fun _ _ hi => hi.elim
  · subst hj
    refine ⟨w'.written, ?_, fun o' ho' => ?_, fun m hm => ?_⟩
    · unfold datasetsOf
      rw [if_pos rfl]
      rfl
    · cases hn.symm.trans ho'
      exact ⟨name, (hnode j).trans (if_pos rfl), hoffers⟩
    · cases hn.symm.trans hm

/-! ### Facets -/

theorem datasetsOf_split {inner : Writing} {here : Option String} {written datasets : List Json}
    {data : String} (hcell : cell ≠ here)
    (h : inner.datasetsOf (some name) cell = some datasets) :
    Writing.datasetsOf { inner with
      written := written
      cells := inner.cells.insert name ⟨data, inner.written⟩ } here cell = some datasets := by
  unfold datasetsOf at h ⊢
  rw [if_neg hcell]
  split at h
  · rename_i hhere
    cases h
    rw [hhere]
    show ((inner.cells.insert name _).get? name).map CellData.datasets = _
    rw [Dict.get?_insert, if_pos rfl]
    rfl
  · rename_i hhere
    obtain ⟨other, hother, hfound⟩ := bind_eq_some_iff.mp h
    rw [hother]
    show ((inner.cells.insert name _).get? other).map CellData.datasets = _
    have hne : other ≠ name := fun he => hhere (he ▸ hother)
    rw [Dict.get?_insert, if_neg hne]
    exact hfound

theorem Sound.headers {data : String} (h : w.Sound f cell) {m : Facet}
    (hdata : m.data = some data) (hvisible : Visible w.written cell data) :
    Closed (w.written ++ m.datasets) cell := by
  refine h.closed.append fun d hd v hv => ?_
  obtain ⟨source, rfl, rfl | hmem⟩ := m.source_of_mem_datasets hdata hd hv
  · exact ⟨_, rfl, hvisible.append _⟩
  · exact ⟨source, rfl, .inl (names_append ▸ mem_append_right _ hmem)⟩

/-! ### The walk over a subtree -/

theorem output_above (h : Told f w.forest)
    (hany : ((w.forest.parent? i).bind w.forest.node?).any Node.isOutput) :
    ∃ p, f.parent? i = some p ∧ f.holds p Node.isOutput := by
  obtain ⟨m, hm, hkind⟩ := (any_eq_true _ _).mp hany
  obtain ⟨p, hp, hm⟩ := bind_eq_some_iff.mp hm
  rw [parent?_congr h.edges] at hp
  refine ⟨p, hp, holds_iff.mpr ?_⟩
  cases m with
  | output out =>
    obtain ⟨source, hsource⟩ := h.symm.node_output hm
    exact ⟨_, hsource, rfl⟩
  | _ => cases hkind

section

variable (hwalk : WalksWell f fuel) (hf : f.Linked) (hapart : f.FacetsApart) (h : Ready f w i d)
  (hfits : f.Fits (fuel + 1) i)

include hwalk hf hapart h hfits

theorem WalksWell.output (hn : f.node? i = some (.output o)) :
    Writes f (f.cell? i) (f.Below i) w (walk (fuel + 1) w i d) := by
  have htold := h.sound.told
  obtain ⟨old, hold⟩ := htold.node_output hn
  have hunder : ((w.forest.parent? i).bind w.forest.node?).any Node.isOutput →
      d.reference?.isSome := fun hany => by
    obtain ⟨p, hp, hout⟩ := output_above htold hany
    exact h.under p hp hout
  rw [walk_output hold hunder fun source href => (h.stands.reference href).1,
    children_congr htold.edges i]
  have hrecords : f.recordsAt i = [] := by rw [recordsAt, hn]; rfl
  have hloaded : f.loadedAt i = [] := by rw [loadedAt, hn]
  obtain ⟨hclose, hoffers⟩ := h.sound.close h.stands
  rw [← recordsTo_of_nil hrecords, ← loadedTo_of_nil hloaded] at hoffers
  refine hwalk.below hf hapart hfits (hclose.tell hn hoffers) (holds_of_node? hn) (fun c hc => ?_) hoffers
  rw [hf.unbroken_below (hf.parent?_of_mem hc), holds_of_node? hn]
  simp [Node.carries]

theorem WalksWell.plain (hn : f.node? i = some n)
    (hends : endsBranch n = false) :
    Writes f (f.cell? i) (f.Below i) w (walk (fuel + 1) w i d) := by
  have houtput : n.isOutput = false := by cases n <;> first | rfl | exact Bool.noConfusion hends
  have hfacet : n.isFacet = false := by cases n <;> first | rfl | exact Bool.noConfusion hends
  rw [walk_node (h.sound.told.node_eq hn houtput hfacet) hfacet]
  obtain ⟨hwrites, hstands, hloading⟩ := h.take hn houtput hfacet
  generalize w.take i ((w.forest.parent? i).bind w.forest.node?) n d = r at *
  have hholds : f.holds i Node.isFacet = false := (holds_of_node? hn).trans hfacet
  have hself : ∀ j, j = i → False ∨ f.holds j endsBranch = false := fun j hj =>
    .inr (hj ▸ (holds_of_node? hn).trans hends)
  have hchildren : r.1.forest.children i = f.children i :=
    children_congr hwrites.sound.told.edges i
  have hat : Writes f (f.cell? i) (· = i) w r.1 := hwrites.weaken (fun _ hj => hj.elim) hself
  cases hc : f.children i with
  | nil =>
    rw [descend_leaf (hchildren.trans hc), houtput]
    refine hat.weaken (fun j hj => hj ▸ .refl f i) fun j hj => .inl ?_
    simpa [hc] using below_iff.mp hj
  | cons c rest =>
    have hmem : c ∈ f.children i := hc ▸ mem_cons_self
    have hp : f.parent? c = some i := hf.parent?_of_mem hmem
    cases rest with
    | nil =>
      have hcell : f.cell? c = f.cell? i := hf.cell?_below hp hholds
      have hready : Ready f r.1 c r.2 := by
        refine ⟨(hf.live hmem).2, hcell ▸ hwrites.sound, ?_, ?_, fun p hp' hout => ?_⟩
        · rw [hcell, hf.lead_below hp hholds]
          exact hstands
        · rw [hloading, hf.unbroken_below hp, hc, holds_of_node? hn]
          simp [and_comm]
        · cases hp.symm.trans hp'
          rw [holds_of_node? hn, houtput] at hout
          cases hout
      have hbelow := hwalk r.1 c r.2 (hfits c hmem) hready
      rw [descend_single (hchildren.trans hc)]
      rw [hcell] at hbelow
      refine hat.thenBelow (hbelow.weaken (fun j hj => ⟨c, hmem, hj⟩) ?_) hf hapart
      rintro j ⟨c', hc', hj⟩
      rw [hc, mem_singleton] at hc'
      exact .inl (hc' ▸ hj)
    | cons c' rest =>
      rw [descend_fork (hchildren.trans hc), hchildren]
      obtain ⟨hclose, hoffers⟩ := hwrites.sound.close hstands
      refine hwalk.below hf hapart hfits ?_ hholds (fun c₀ hc₀ => ?_) hoffers
      · exact (hat.trans hclose hf hapart fun hfalse => hfalse.elim).weaken
          (fun _ hj => hj.elim id False.elim) fun _ hj => .inl (.inl hj)
      · rw [hf.unbroken_below (hf.parent?_of_mem hc₀), hc]
        simp

theorem WalksWell.facet {m : Facet} (hm : f.node? i = some (.facet m)) :
    Writes f (f.cell? i) (f.Below i) w (walk (fuel + 1) w i d) := by
  obtain ⟨old, hold⟩ := h.sound.told.node_facet hm
  rw [walk_facet hold]
  obtain ⟨hclose, hoffers⟩ := h.sound.close h.stands
  have hvisible := hoffers.visible
  unfold splitCells
  dsimp only
  generalize w.close d = closed at *
  obtain ⟨w₁, data⟩ := closed
  obtain ⟨old', hold'⟩ := hclose.sound.told.node_facet hm
  -- The facet is told what it splits, and its headers are written.
  have hnode : ∀ j, (w₁.openFacet i { m with data := old } data).forest.node? j =
      if j = i then some (.facet { m with data := some data }) else w₁.forest.node? j := by
    intro j
    show (w₁.forest.setNode i _).node? j = _
    rw [node?_setNode]
    split
    · rename_i hj
      rw [hj, hold']
      rfl
    · rfl
  have htold : Told f (w₁.openFacet i { m with data := old } data).forest :=
    hclose.sound.told.modify i fun n hn => by
      cases hold'.symm.trans hn
      rfl
  have hheaders : Closed (w₁.openFacet i { m with data := old } data).written (f.cell? i) :=
    hclose.sound.headers (m := { m with data := some data }) rfl hvisible
  have hwritten : (w₁.openFacet i { m with data := old } data).written =
      w₁.written ++ ({ m with data := some data } : Facet).datasets := rfl
  have hopened : (w₁.openFacet i { m with data := old } data).cells = w₁.cells := rfl
  generalize w₁.openFacet i { m with data := old } data = opened at *
  rw [children_congr htold.edges i]
  have hcells : Writes f (some m.name) (fun j => ∃ c ∈ f.children i, f.Below c j)
      { opened with written := [] } ((f.children i).foldl
        (fun inner child => walk fuel inner child (.derived m.name)) { opened with written := [] }) := by
    refine hwalk.foldl hf hapart ⟨htold, nofun⟩ fun c hc => ?_
    have hp : f.parent? c = some i := hf.parent?_of_mem hc
    have hcell : f.cell? c = some m.name := hf.cell?_below_facet hp hm
    refine ⟨hfits c hc, hcell, .ofOffers (hf.live hc).2 ⟨htold, nofun⟩ ?_ ?_⟩
    · rw [hf.lead_below_facet hp hm]
      exact ⟨none, .boundary hcell, fun hne => absurd rfl hne⟩
    · rw [hf.unbroken_below hp, holds_of_node? hm]
      simp [Node.carries]
  generalize (f.children i).foldl (fun inner child => walk fuel inner child (.derived m.name))
    { opened with written := [] } = inner at *
  have hself : inner.forest.node? i = some (.facet { m with data := some data }) := by
    refine (hcells.nodes i ?_).trans ((hnode i).trans (if_pos rfl))
    rintro ⟨c, hc, hb⟩
    exact hf.not_below_of_child hc hb
  refine ⟨⟨hcells.sound.told, hheaders⟩, ?_, fun j hj => ?_, fun name hother => ?_,
    fun j hj hends => ?_⟩
  · obtain ⟨more, hmore⟩ := hclose.kept
    exact ⟨more ++ _, by rw [← append_assoc, ← hmore]; exact hwritten⟩
  · have hji : j ≠ i := fun he => hj (he ▸ .refl f i)
    refine (hcells.nodes j fun hb => hj (below_iff.mpr (.inr hb))).trans ?_
    exact ((hnode j).trans (if_neg hji)).trans (hclose.nodes j id)
  · rw [Dict.get?_insert, if_neg fun he => hother i m (.refl f i) hm he.symm]
    refine (hcells.cells name fun k m' hk hm' => hother k m' (below_iff.mpr (.inr hk)) hm').trans ?_
    exact (congrArg (Dict.get? · name) hopened).trans (hclose.cells name fun _ _ hfalse => hfalse.elim)
  · by_cases hji : j = i
    · subst hji
      refine ⟨opened.written, if_pos rfl, fun o ho => ?_, fun m' hm' => ?_⟩
      · cases hm.symm.trans ho
      · cases hm.symm.trans hm'
        refine ⟨data, inner.written, hself, ?_, fun name hname => ?_, ?_, hcells.sound.closed⟩
        · exact hwritten ▸ hvisible.append _
        · rw [hwritten, names_append, m.names_datasets_data]
          exact mem_append_right _ hname
        · rw [Dict.get?_insert, if_pos rfl]
    · obtain ⟨c, hc, hb⟩ := (below_iff.mp hj).resolve_left hji
      have hcell : f.cell? j ≠ f.cell? i := hf.cell?_ne hapart hm hc hb
      obtain ⟨datasets, hfound, houtput, hfacet⟩ := hcells.grounds j ⟨c, hc, hb⟩ hends
      refine ⟨datasets, datasetsOf_split hcell hfound, houtput, fun m' hm' => ?_⟩
      obtain ⟨data', inside, hdata', hvisible', hheaders', hcells', hclosed'⟩ := hfacet m' hm'
      refine ⟨data', inside, hdata', hvisible', hheaders', ?_, hclosed'⟩
      rw [Dict.get?_insert, if_neg fun he => hji (hapart hm' hm he)]
      exact hcells'

end

theorem walk_writes (hf : f.Linked) (hapart : f.FacetsApart) (fuel : Nat) : WalksWell f fuel := by
  induction fuel with
  | zero => exact fun w i d hfits => hfits.elim
  | succ fuel ih =>
    intro w i d hfits h
    obtain ⟨n, hn⟩ := exists_node h.live
    cases n with
    | output o => exact ih.output hf hapart h hfits hn
    | facet m => exact ih.facet hf hapart h hfits hn
    | _ => exact ih.plain hf hapart h hfits hn rfl

end Writing

end ChartPlan.Flow
