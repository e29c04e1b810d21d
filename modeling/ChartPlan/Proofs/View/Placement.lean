import ChartPlan.Proofs.View.Sowing

/-!
# Where the outputs of views are

Views with different names give different names to their outputs, so the main output of a view and
its facet are found under their names, in the cell of a facet around the view or in no cell.

* `Branch.Sows`: what every step of a branch keeps; `Sows.growsTo`: hence all of them.
* `View.Placed`: the views of a tree are found in the cells around them.
* `View.withData_placed`: in the dataflow of views with different names, all of them are.
-/

namespace ChartPlan

open ChartPlan.Flow List

/-! ### Names -/

def Given (done : String → Prop) (key : String) : Prop :=
  ∃ a s, done a ∧ key = nameIn a (Slot.text s)

/-- Whether a name was given by a view that is done, or by the present view for one of its slots. -/
def Taken (done : String → Prop) (view : String) (slots : Slot → Prop) (key : String) : Prop :=
  Given done key ∨ ∃ s, slots s ∧ key = nameIn view s.text

/-- A view with a name that no view before it has. -/
structure Newcomer (done : String → Prop) (view : String) : Prop where
  names : ∀ a, done a → IsName a
  name : IsName view
  new : ¬ done view

variable {done : String → Prop} {view key : String} {slots more : Slot → Prop}

theorem Newcomer.not_taken (h : Newcomer done view) {s : Slot} (hs : ¬ slots s) :
    ¬ Taken done view slots (nameIn view s.text) := by
  rintro (⟨a, t, ha, he⟩ | ⟨t, ht, he⟩)
  · exact h.new ((nameIn_slot_inj h.name (h.names a ha) he).1 ▸ ha)
  · exact hs ((nameIn_slot_inj h.name h.name he).2 ▸ ht)

theorem Taken.mono (h : Taken done view slots key) (hslots : ∀ s, slots s → more s) :
    Taken done view more key :=
  h.imp_right fun ⟨s, hs, he⟩ => ⟨s, hslots s hs, he⟩

theorem Taken.given (h : Taken done view slots key) : Given (fun a => done a ∨ a = view) key :=
  h.elim (fun ⟨a, s, ha, he⟩ => ⟨a, s, .inl ha, he⟩) fun ⟨s, _, he⟩ => ⟨view, s, .inr rfl, he⟩

/-- Views with names that are different from each other and from those of the views before them. All
are names of one chart. -/
structure Newcomers (all done : String → Prop) (views : List String) : Prop where
  names : ∀ a, all a → IsName a
  old : ∀ a, done a → all a
  new : ∀ a ∈ views, all a ∧ ¬ done a
  nodup : views.Nodup

theorem Newcomers.head {all : String → Prop} {views : List String} (h : Newcomers all done (view :: views)) :
    Newcomer done view :=
  have hview := h.new view mem_cons_self
  ⟨fun a ha => h.names a (h.old a ha), h.names view hview.1, hview.2⟩

theorem Newcomers.tail {all : String → Prop} {views : List String} (h : Newcomers all done (view :: views)) :
    Newcomers all (fun a => done a ∨ a = view) views where
  names := h.names
  old a ha := ha.elim (h.old a) fun ha => ha ▸ (h.new view mem_cons_self).1
  new a ha := by
    obtain ⟨hall, hnew⟩ := h.new a (mem_cons_of_mem _ ha)
    exact ⟨hall, fun hold => hold.elim hnew fun hold => (nodup_cons.mp h.nodup).1 (hold ▸ ha)⟩
  nodup := (nodup_cons.mp h.nodup).2

def Slot.before (others : Slot → Prop) (k : Nat) (s : Slot) : Prop :=
  others s ∨ ∃ j < k, s = .lookup j

/-! ### Branches -/

namespace Branch

open Forest

/-- A branch in a sown forest that extends another one. Its end is in a cell, and all names of the
forest are taken. -/
structure Sows (stores : String → Prop) (f : Forest) (cell : Option String) (taken : String → Prop)
    (b : Branch) : Prop where
  sown : b.forest.Sown stores
  kept : f.Extends b.forest
  live : b.forest.contains b.tip
  cell : b.forest.cellBelow b.tip = cell
  names : ∀ e ∈ b.forest.outputs, taken e.1

namespace Sows

variable {stores taken taken' : String → Prop} {f : Forest} {cell : Option String} {b b' : Branch}
  {n : Node} {name : String}

variable (h : b.Sows stores f cell taken)

include h

theorem get?_eq_none (hname : ¬ taken name) : b.forest.outputs.get? name = none :=
  Dict.get?_eq_none fun e he heq => hname (heq ▸ h.names e he)

theorem move (hfg : b.forest.Extends b'.forest) (hsown : b'.forest.Sown stores)
    (hn : b'.forest.node? b'.tip = some n) (hfacet : n.isFacet = false)
    (hparent : b'.forest.parent? b'.tip = some b.tip)
    (hnames : ∀ e ∈ b'.forest.outputs, taken' e.1) : b'.Sows stores f cell taken' where
  sown := hsown
  kept := h.kept.trans hfg
  live := contains_of_node? hn
  cell := by
    rw [cellBelow_eq_cell? (facetName?_eq_none hn hfacet),
      hsown.planted.cell?_of_parent? hparent,
      hfg.cellBelow_eq h.sown.planted.toLinked hsown.planted.toLinked h.live, h.cell]
  names := hnames

theorem push (hsource : n.isDataSource = false) (hnumber : n.number? = none)
    (hsuits : ∀ {g i}, b.forest.Extends g → g.Linked → g.Suits stores i n) :
    (b.push n).Sows stores f cell taken := by
  have hplanted := h.sown.planted.add hsource h.live
  obtain ⟨hfg, hsown⟩ := h.sown.add h.live hsource hnumber fun hfg => hsuits hfg hplanted.toLinked
  refine h.move hfg hsown ?_ (Node.isFacet_of_number? hnumber) ?_ ?_
  · exact h.sown.planted.arena.node?_add_self n (some b.tip)
  · exact (h.sown.planted.parent?_add n b.tip _).trans (if_pos rfl)
  · intro e he
    exact h.names e (outputs_add b.forest n (some b.tip) ▸ he)

theorem addNamed (hnumber : n.number? = some b.forest.ids.next) (hfacet : n.isFacet = false)
    (hname : ¬ taken name) {requests : Dict Nat}
    (hrequest : ∀ name, b.forest.requestCount name ≤ (requests.get? name).getD 0)
    (hsuits : (b.forest.addNamed n b.tip name requests).Suits stores (b.forest.add n (some b.tip)).2 n)
    (hforest : b'.forest = b.forest.addNamed n b.tip name requests)
    (htip : b'.tip = (b.forest.add n (some b.tip)).2) (htaken : ∀ key, taken key → taken' key)
    (hnew : taken' name) : b'.Sows stores f cell taken' := by
  obtain ⟨hfg, hsown⟩ := h.sown.addNamed h.live hnumber (h.get?_eq_none hname) hrequest fun _ => hsuits
  rw [← hforest] at hfg hsown
  refine h.move hfg hsown (n := n) ?_ hfacet ?_ ?_
  · rw [hforest, htip]
    exact h.sown.planted.arena.node?_add_self n (some b.tip)
  · rw [hforest, htip]
    exact (h.sown.planted.parent?_add n b.tip _).trans (if_pos rfl)
  · rw [hforest]
    intro e he
    rcases Dict.mem_of_mem_insert he with rfl | he
    · exact hnew
    · exact htaken _ (h.names e (outputs_add b.forest n (some b.tip) ▸ he))

end Sows

theorem output_eq (b : Branch) (name : String) (kind : OutputKind) :
    b.output name kind =
      { b with
        forest := b.forest.addNamed (.output (.fresh name kind b.forest.ids.next)) b.tip name
          (b.forest.add (.output (.fresh name kind b.forest.ids.next)) (some b.tip)).1.requests
        tip := (b.forest.add (.output (.fresh name kind b.forest.ids.next)) (some b.tip)).2 } := by
  unfold Branch.output Branch.push freshId
  dsimp only
  rw [add_recount]
  rfl

namespace Sows

variable {stores taken taken' : String → Prop} {f : Forest} {cell : Option String} {b b' : Branch}
  {n : Node} {name : String}

theorem output (h : b.Sows stores f cell taken) (kind : OutputKind) (hname : ¬ taken name)
    (htaken : ∀ key, taken key → taken' key) (hnew : taken' name) :
    (b.output name kind).Sows stores f cell taken' := by
  rw [output_eq]
  refine h.addNamed (n := .output (.fresh name kind b.forest.ids.next)) rfl rfl hname ?_
    ⟨rfl, get?_addNamed _ _ _ _ _⟩ rfl rfl htaken hnew
  exact fun name => Nat.le_of_eq (requestCount_add _ _ _ name).symm

theorem request (h : b.Sows stores f cell taken) (name : String) :
    (b.request name).Sows stores f cell taken := by
  obtain ⟨hfg, hsown⟩ := h.sown.request name
  refine ⟨hsown, h.kept.trans hfg, h.live, ?_, h.names⟩
  exact (hfg.cellBelow_eq h.sown.planted.toLinked hsown.planted.toLinked h.live).trans h.cell

theorem node?_output (h : b.Sows stores f cell taken) (name : String) (kind : OutputKind) :
    (b.output name kind).forest.outputs.get? name = some (b.output name kind).tip ∧
      (b.output name kind).forest.node? (b.output name kind).tip =
        some (.output (.fresh name kind b.forest.ids.next)) := by
  rw [output_eq]
  exact ⟨get?_addNamed _ _ _ _ _, h.sown.planted.arena.node?_add_self _ (some b.tip)⟩

/-! ### Rows beside a branch -/

theorem ofRoot (hf : f.Extends b.forest) (hsown : b.forest.Sown stores)
    (hroot : b.forest.holds b.tip Node.isDataSource) (houtputs : b.forest.outputs = f.outputs)
    (hnames : ∀ e ∈ f.outputs, taken e.1) : b.Sows stores f none taken where
  sown := hsown
  kept := hf
  live := contains_of_holds hroot
  cell := hsown.planted.cellBelow_root hroot
  names := houtputs ▸ hnames

theorem root (hf : f.Sown stores) (hnames : ∀ e ∈ f.outputs, taken e.1) (hn : n.isDataSource)
    (htidy : ∀ s, n = .source s → Tidy s.descriptor) (known : KnownKinds) :
    Sows stores f none taken ⟨(f.root n).1, (f.root n).2, known⟩ := by
  obtain ⟨hfg, hsown, houtputs, hroot⟩ := hf.root hn htidy
  exact ofRoot hfg hsown hroot houtputs hnames

theorem rootOfBlock (hf : f.Sown stores) (hnames : ∀ e ∈ f.outputs, taken e.1) (data : DataBlock)
    (known : KnownKinds) :
    Sows stores f none taken ⟨(f.root (.ofBlock data)).1, (f.root (.ofBlock data)).2, known⟩ := by
  refine root hf hnames (Node.isDataSource_ofBlock data) (fun s hs => ?_) known
  unfold Node.ofBlock at hs
  split at hs
  · cases hs
  · cases hs
  · cases hs
    exact (Source.tidy_made data .null "").1

section

variable (h : b.Sows stores f cell taken)

include h

theorem relearn (known : KnownKinds) : Sows stores f cell taken { b with known } :=
  ⟨h.sown, h.kept, h.live, h.cell, h.names⟩

theorem parse (c : Coercion) : (b.push (.parse c)).Sows stores f cell taken :=
  h.push rfl rfl fun _ _ => True.intro

theorem identify : b.identify.Sows stores f cell taken :=
  h.push rfl rfl fun _ _ => True.intro

theorem lookupSource {data : Json} (hb : b.lookupSource data name = .ok b') (hname : ¬ taken name)
    (htaken : ∀ key, taken key → taken' key) (hnew : taken' name) :
    b'.Sows stores f cell taken' ∧ b'.forest.Offers name := by
  -- The rows come from a root in no cell; the branch itself stays where it is.
  obtain ⟨block, side, -, hcases, rfl⟩ := lookupSource_cases hb
  have hroot := rootOfBlock h.sown h.names block {}
  have hside : side.Sows stores b.forest none taken := by
    rcases hcases with rfl | ⟨c, rfl⟩
    · exact hroot
    · exact hroot.parse c
  have hdone := (hside.output .lookup hname htaken hnew).request name
  obtain ⟨hentry, hnode⟩ : ((side.output name .lookup).request name).forest.outputs.get? name =
      some ((side.output name .lookup).request name).tip ∧
      ((side.output name .lookup).request name).forest.node?
        ((side.output name .lookup).request name).tip = some (.output (.fresh name .lookup _)) :=
    hside.node?_output name .lookup
  refine ⟨⟨hdone.sown, h.kept.trans hdone.kept, hdone.kept.contains h.live, ?_, hdone.names⟩,
    _, _, hentry, hnode, ?_, ?_⟩
  · exact (hdone.kept.cellBelow_eq h.sown.planted.toLinked hdone.sown.planted.toLinked h.live).trans
      h.cell
  · exact requestCount_request _ name
  · exact (cellBelow_eq_cell? (facetName?_eq_none hnode rfl)).symm.trans hdone.cell

end

/-! ### Steps -/

variable {context : DataContext} {v : View} {done : String → Prop} {others : Slot → Prop} {k k' : Nat}

theorem suits_of_isPlain {g : Forest} {i : NodeId} (hn : n.isPlain) : g.Suits stores i n := by
  cases n <;> first | exact True.intro | exact Bool.noConfusion hn

theorem plain (h : b.Sows stores f cell taken) (hn : n.isPlain) :
    (b.push n).Sows stores f cell taken := by
  refine h.push ?_ ?_ fun _ _ => suits_of_isPlain hn
  all_goals cases n <;> first | rfl | exact Bool.noConfusion hn

theorem lookup (h : b.Sows stores f cell taken) {l : Lookup}
    (hl : stores l.secondary ∨ b.forest.Offers l.secondary) :
    (b.push (.lookup l)).Sows stores f cell taken :=
  h.push rfl rfl fun hfg hg => hl.imp_right fun hoffers =>
    hoffers.mono hfg h.sown.planted.toLinked hg

section

variable (hnew : Newcomer done v.name) (hothers : ∀ j, ¬ others (.lookup j))
  (hstores : ∀ param, context.selections.contains param → stores (param ++ "_store"))
  (h : b.Sows stores f cell (Taken done v.name (Slot.before others k)))

include hnew hothers hstores h

theorem grows (hstep : Grows context v (b, k) (b', k')) :
    b'.Sows stores f cell (Taken done v.name (Slot.before others k')) := by
  cases hstep with
  | learn _ => exact h.relearn _
  | push hn _ => exact (h.plain hn).relearn _
  | @aggregate _ _ a _ _ =>
    have hpushed : (b.push (.aggregate a)).Sows stores f cell _ :=
      h.push rfl rfl fun _ _ => True.intro
    split
    · exact (hpushed.relearn _).identify
    · exact hpushed.relearn _
  | search hparam hl _ => exact (h.lookup (.inl (hl ▸ hstores _ hparam))).relearn _
  | join _ _ hside hl _ =>
    have hfree : ¬ Slot.before others k (.lookup k) := by
      rintro (hk | ⟨j, hj, he⟩)
      · exact hothers k hk
      · cases he
        exact Nat.lt_irrefl k hj
    have hlater : ∀ key, Taken done v.name (Slot.before others k) key →
        Taken done v.name (Slot.before others (k + 1)) key := fun key hkey =>
      hkey.mono fun s hs => hs.imp_right fun ⟨j, hj, he⟩ => ⟨j, Nat.lt_succ_of_lt hj, he⟩
    obtain ⟨hsows, hoffers⟩ := h.lookupSource hside (hnew.not_taken hfree) hlater
      (.inr ⟨.lookup k, .inr ⟨k, Nat.lt_succ_self k, rfl⟩, rfl⟩)
    exact (hsows.lookup (.inr (hl ▸ hoffers))).relearn _

theorem growsTo (hsteps : GrowsTo context v (b, k) (b', k')) :
    b'.Sows stores f cell (Taken done v.name (Slot.before others k')) := by
  suffices hall : ∀ r, GrowsTo context v (b, k) r →
      r.1.Sows stores f cell (Taken done v.name (Slot.before others r.2)) from hall (b', k') hsteps
  intro r hr
  induction hr with
  | refl => exact h
  | tail _ hstep ih => exact ih.grows hnew hothers hstores hstep

end

end Sows

end Branch

/-! ### Views -/

/-- A node that must stay is found under a name, in one of the cells or in none. -/
structure Flow.Forest.Finds (f : Forest) (cells : List String) (name : String) (i : NodeId)
    (n : Node) : Prop where
  entry : f.outputs.get? name = some i
  node : f.node? i = some n
  vital : f.Vital n
  cell : ∀ c, f.cell? i = some c → c ∈ cells

theorem Flow.Forest.Finds.mono {f g : Forest} {cells : List String} {name : String} {i : NodeId}
    {n : Node} (h : f.Finds cells name i n) (hfg : f.Extends g) (hf : f.Linked) (hg : g.Linked) :
    g.Finds cells name i n where
  entry := hfg.entry h.entry
  node := hfg.kept h.node (by
    have hends := h.vital.endsBranch
    cases n <;> first | rfl | exact Bool.noConfusion hends)
  vital := hfg.vital h.vital
  cell c hc := h.cell c ((hfg.cell?_eq hf hg (Forest.contains_of_node? h.node)).symm.trans hc)

namespace View

open Branch Checked Forest

variable {stores done : String → Prop} {f g : Forest} {cells : List String} {context : DataContext}
  {v : View} {above : Option Above} {b : Branch} {cell : Option String}

/-- The data above a view is in one of the cells or in none. -/
def Reached (f : Forest) (cells : List String) (above : Option Above) : Prop :=
  ∀ a, above = some a → f.contains (a.part.facet.getD a.part.main) ∧
    ∀ c, f.cellBelow (a.part.facet.getD a.part.main) = some c → c ∈ cells

theorem Reached.mono (h : Reached f cells above) (hfg : f.Extends g) (hf : f.Linked) (hg : g.Linked) :
    Reached g cells above := fun a ha =>
  have ⟨hlive, hcell⟩ := h a ha
  ⟨hfg.contains hlive, fun c hc => hcell c ((hfg.cellBelow_eq hf hg hlive).symm.trans hc)⟩

theorem rootOf_sows {taken : String → Prop} (hf : f.Sown stores) (hnames : ∀ e ∈ f.outputs, taken e.1)
    (habove : Reached f cells above) (known : KnownKinds) : ∃ cell, (∀ c, cell = some c → c ∈ cells) ∧
      Sows stores f cell taken ⟨(v.rootOf above f).1, (v.rootOf above f).2, known⟩ := by
  unfold rootOf
  split
  · obtain ⟨hfg, hsown⟩ := hf.addRoot (n := .source .empty) rfl fun s hs => by
      cases hs
      exact .single _ (by decide)
    refine ⟨none, by simp, .ofRoot hfg hsown ?_ (outputs_add f _ none) hnames⟩
    rw [holds_of_node? (hf.planted.arena.node?_add_self _ none)]
    rfl
  · exact ⟨none, by simp, .rootOfBlock hf hnames _ known⟩
  · rename_i a _
    obtain ⟨hlive, hcell⟩ := habove a rfl
    exact ⟨_, hcell, hf, .refl f, hlive, rfl, hnames⟩
  · refine ⟨none, by simp, .root hf hnames rfl (fun s hs => ?_) known⟩
    cases hs
    exact .nil

theorem Starts.sows {taken : String → Prop} (h : v.Starts above f b) (hf : f.Sown stores)
    (hnames : ∀ e ∈ f.outputs, taken e.1) (habove : Reached f cells above) :
    ∃ cell, (∀ c, cell = some c → c ∈ cells) ∧ b.Sows stores f cell taken := by
  obtain ⟨cell, hcell, hsows⟩ := rootOf_sows (v := v) hf hnames habove (v.knownAbove above)
  cases h with
  | root _ => exact ⟨cell, hcell, hsows.relearn _⟩
  | parse _ => exact ⟨cell, hcell, (hsows.parse _).relearn _⟩

/-- The main output of a view is at the end of its branch, and found under its name. -/
structure EndsInMain (stores : String → Prop) (f : Forest) (cell : Option String) (v : View)
    (taken : String → Prop) (b : Branch) : Prop extends b.Sows stores f cell taken where
  entry : b.forest.outputs.get? (v.inner "main") = some b.tip
  main : ∃ o, b.forest.node? b.tip = some (.output o) ∧ o.name = v.inner "main"
  requested : v.unit?.isSome → 0 < b.forest.requestCount (v.inner "main")

theorem Grew.endsInMain (h : v.Grew context above f b) (hnew : Newcomer done v.name)
    (hstores : ∀ param, context.selections.contains param → stores (param ++ "_store"))
    (hf : f.Sown stores) (hnames : ∀ e ∈ f.outputs, Taken done v.name (fun _ => False) e.1)
    (habove : Reached f cells above) : ∃ cell, (∀ c, cell = some c → c ∈ cells) ∧
      EndsInMain stores f cell v (Taken done v.name (· ≠ .facet)) b := by
  obtain ⟨hstart, hearly, hlate⟩ := h
  rename_i start early late k k'
  have hnone : ∀ e ∈ f.outputs, Taken done v.name (Slot.before (fun _ => False) 0) e.1 :=
    fun e he => (hnames e he).mono nofun
  obtain ⟨cell, hcell, hsows⟩ := hstart.sows hf hnone habove
  have hearly := hsows.identify.growsTo hnew (by simp) hstores hearly
  have hraw : (early.output (v.inner "raw") .raw).Sows stores f cell
      (Taken done v.name (Slot.before (· = .raw) k)) :=
    hearly.output .raw (hnew.not_taken (s := .raw) (by simp [Slot.before]))
      (fun key hkey => hkey.mono fun s hs => .inr (hs.resolve_left id)) (.inr ⟨.raw, .inl rfl, rfl⟩)
  have hlate := hraw.growsTo hnew (by simp) hstores hlate
  have hmain : (late.output (v.inner "main") .main).Sows stores f cell
      (Taken done v.name (· ≠ .facet)) :=
    hlate.output .main (hnew.not_taken (s := .main) (by simp [Slot.before]))
      (fun key hkey => hkey.mono fun s hs => by
        rintro rfl
        simp [Slot.before] at hs) (.inr ⟨.main, by simp, rfl⟩)
  obtain ⟨hentry, hnode⟩ := hlate.node?_output (v.inner "main") .main
  refine ⟨cell, hcell, ?_⟩
  split
  · exact ⟨hmain.request _, hentry, ⟨_, hnode, rfl⟩, fun _ => requestCount_request _ _⟩
  · exact ⟨hmain, hentry, ⟨_, hnode, rfl⟩, fun hunit => absurd hunit ‹_›⟩

/-! ### Facets -/

theorem facetNode_value (v : View) (mapping : FacetMapping) (child : Option View) (id : Nat) :
    (v.facetNode mapping child id).value.name = v.inner "facet" ∧
      (v.facetNode mapping child id).value.main = v.inner "main" ∧
      (v.facetNode mapping child id).value.id = id := by
  unfold facetNode
  simp only [Logged.value_bind, Logged.value_pure]
  exact ⟨trivial, trivial, trivial⟩

theorem addFacet_value {mapping : FacetMapping} (hbody : v.body = .facet mapping) (child : Option View)
    (b : Branch) : ∃ m : Facet, m.name = v.inner "facet" ∧ m.main = v.inner "main" ∧
      m.id = b.forest.ids.next ∧
      (v.addFacet child b).value =
        (b.forest.addNamed (.facet m) b.tip m.name
          ((b.forest.add (.facet m) (some b.tip)).1.request (v.inner "main")).requests,
          some (b.forest.add (.facet m) (some b.tip)).2) := by
  obtain ⟨hname, hmain, hid⟩ := v.facetNode_value mapping child b.forest.ids.next
  refine ⟨_, hname, hmain, hid, ?_⟩
  unfold addFacet freshId
  rw [hbody]
  simp only [Logged.value_bind, Logged.value_pure, add_recount]
  rfl

/-- The view is found in the cells: a unit view by its main output, a faceted one by its facet. -/
structure Housed (f : Forest) (cells : List String) (v : View) : Prop where
  main : v.unit?.isSome → ∃ part o, v.dataPart = some part ∧ o.name = v.inner "main" ∧
    f.Finds cells (v.inner "main") part.main (.output o)
  facet : v.isFacet → ∃ i m, m.name = v.inner "facet" ∧ f.Finds cells (v.inner "facet") i (.facet m)

def cellsInside (cells : List String) (v : View) : List String :=
  if v.isFacet then v.inner "facet" :: cells else cells

/-- What is known when a view was added to a forest. -/
structure Added (stores done : String → Prop) (f : Forest) (cells : List String) (v : View)
    (part : DataPart) (g : Forest) : Prop where
  sown : g.Sown stores
  kept : f.Extends g
  names : ∀ e ∈ g.outputs, Taken done v.name (fun _ => True) e.1
  housed : Housed g cells { v with dataPart := some part }
  reached : Reached g (cellsInside cells v) (some ⟨part, v.isLayer⟩)

theorem EndsInMain.finds {taken : String → Prop} (h : EndsInMain stores f cell v taken b)
    (hcell : ∀ c, cell = some c → c ∈ cells) {o : Output}
    (ho : b.forest.node? b.tip = some (.output o)) (hname : o.name = v.inner "main")
    (hrequested : 0 < b.forest.requestCount (v.inner "main")) :
    b.forest.Finds cells (v.inner "main") b.tip (.output o) where
  entry := h.entry
  node := ho
  vital := by
    show 0 < b.forest.requestCount o.name
    rwa [hname]
  cell c hc := by
    rw [← cellBelow_eq_cell? (facetName?_eq_none ho rfl), h.cell] at hc
    exact hcell c hc

section

variable (h : EndsInMain stores f cell v (Taken done v.name (· ≠ .facet)) b)

include h

theorem EndsInMain.added (hcell : ∀ c, cell = some c → c ∈ cells) (hfacet : v.isFacet = false)
    (known : KnownKinds) :
    Added stores done f cells v ⟨b.tip, none, known⟩ b.forest where
  sown := h.sown
  kept := h.kept
  names e he := (h.names e he).mono fun _ _ => True.intro
  housed :=
    { main := fun hunit => by
        obtain ⟨o, ho, hname⟩ := h.main
        exact ⟨_, o, rfl, hname, h.finds hcell ho hname (h.requested hunit)⟩
      facet := fun hf => by
        rw [show ({ v with dataPart := some ⟨b.tip, none, known⟩ } : View).isFacet = v.isFacet from rfl,
          hfacet] at hf
        exact Bool.noConfusion hf }
  reached a ha := by
    cases ha
    refine ⟨h.live, fun c hc => ?_⟩
    unfold cellsInside
    rw [hfacet]
    exact hcell c (h.cell.symm.trans hc)

theorem EndsInMain.addFacet {mapping : FacetMapping} (hnew : Newcomer done v.name)
    (hcell : ∀ c, cell = some c → c ∈ cells) (hbody : v.body = .facet mapping)
    (child : Option View) (known : KnownKinds) :
    Added stores done f cells v ⟨b.tip, (v.addFacet child b).value.2, known⟩
      (v.addFacet child b).value.1 := by
  obtain ⟨m, hname, hmain, hid, hvalue⟩ := addFacet_value hbody child b
  obtain ⟨o, ho, honame⟩ := h.main
  have hfree : b.forest.outputs.get? m.name = none :=
    h.get?_eq_none (hname ▸ hnew.not_taken (s := .facet) (by simp))
  obtain ⟨hfg, hsown⟩ := h.sown.addFacet ho (hmain ▸ h.entry) hid hfree
    ((b.forest.add (.facet m) (some b.tip)).1.request (v.inner "main")).requests
    (fun name => (requestCount_add b.forest _ _ name).symm.le.trans (requestCount_le_request _ _ name))
    (honame ▸ requestCount_request _ _)
  have hnode := h.sown.planted.arena.node?_add_self (.facet m) (some b.tip)
  have hparent := (h.sown.planted.parent?_add (.facet m) b.tip _).trans (if_pos rfl)
  rw [hvalue]
  refine ⟨hsown, h.kept.trans hfg, fun e he => ?_, ⟨fun hunit => ?_, fun _ => ?_⟩, fun a ha => ?_⟩
  · rcases Dict.mem_of_mem_insert he with rfl | he
    · exact .inr ⟨.facet, True.intro, hname⟩
    · exact (h.names e (outputs_add b.forest _ _ ▸ he)).mono fun _ _ => True.intro
  · simp [unit?, hbody] at hunit
  · refine ⟨_, m, hname, hname ▸ get?_addNamed _ _ _ _ _, hnode, True.intro, fun c hc => hcell c ?_⟩
    rw [hsown.planted.cell?_of_parent? hparent, hfg.cellBelow_eq h.sown.planted.toLinked
      hsown.planted.toLinked h.live, h.cell] at hc
    exact hc
  · cases ha
    refine ⟨contains_of_node? hnode, fun c hc => ?_⟩
    have hinside := (cellBelow_of_facet
      (f := b.forest.addNamed (.facet m) b.tip m.name _) hnode).symm.trans hc
    unfold cellsInside isFacet
    rw [hbody, ← Option.some.inj hinside, hname]
    exact mem_cons_self

theorem addFacet_added (hnew : Newcomer done v.name) (hcell : ∀ c, cell = some c → c ∈ cells)
    (child : Option View) (known : KnownKinds) :
    Added stores done f cells v ⟨b.tip, (v.addFacet child b).value.2, known⟩
      (v.addFacet child b).value.1 := by
  rcases v.addFacet_cases child b with ⟨hfacet, heq⟩ | ⟨mapping, hbody, -⟩
  · rw [heq]
    exact h.added hcell hfacet known
  · exact h.addFacet hnew hcell hbody child known

end

/-! ### Trees of views -/

mutual

/-- The views of a tree are found in the cells around them. -/
def Placed (f : Forest) (cells : List String) : Tree View → Prop
  | .node v children => v.Housed f cells ∧ PlacedAll f (v.cellsInside cells) children

/-- The views of several trees are found in the cells around them. -/
def PlacedAll (f : Forest) (cells : List String) : List (Tree View) → Prop
  | [] => True
  | t :: rest => Placed f cells t ∧ PlacedAll f cells rest

end

theorem Housed.mono (h : v.Housed f cells) (hfg : f.Extends g) (hf : f.Linked) (hg : g.Linked) :
    v.Housed g cells where
  main hunit :=
    have ⟨part, o, hpart, hname, hfinds⟩ := h.main hunit
    ⟨part, o, hpart, hname, hfinds.mono hfg hf hg⟩
  facet hfacet :=
    have ⟨i, m, hname, hfinds⟩ := h.facet hfacet
    ⟨i, m, hname, hfinds.mono hfg hf hg⟩

theorem placedAll_iff {ts : List (Tree View)} : PlacedAll f cells ts ↔ ∀ t ∈ ts, Placed f cells t := by
  induction ts with
  | nil => simp [PlacedAll]
  | cons t rest ih => rw [PlacedAll, ih, forall_mem_cons]

theorem Placed.imp (t : Tree View) {cells : List String}
    (himp : ∀ v ∈ t.preorder, ∀ cells, Housed f cells v → Housed g cells v) (h : Placed f cells t) :
    Placed g cells t := by
  induction t generalizing cells with
  | node v children ih =>
    refine ⟨himp v mem_cons_self _ h.1, placedAll_iff.mpr fun t ht => ?_⟩
    exact ih t ht (fun w hw => himp w (mem_cons_of_mem _ (Tree.mem_preorders.mpr ⟨t, ht, hw⟩)))
      (placedAll_iff.mp h.2 t ht)

theorem Placed.housed (t : Tree View) {cells : List String} (h : Placed f cells t) :
    ∀ v ∈ t.preorder, ∃ cells, v.Housed f cells := by
  induction t generalizing cells with
  | node v children ih =>
    intro w hw
    rcases mem_cons.mp hw with rfl | hw
    · exact ⟨cells, h.1⟩
    · obtain ⟨t, ht, hw⟩ := Tree.mem_preorders.mp hw
      exact ih t ht (placedAll_iff.mp h.2 t ht) w hw

theorem addData_added (child : Option View) (hnew : Newcomer done v.name)
    (hstores : ∀ param, context.selections.contains param → stores (param ++ "_store"))
    (hf : f.Sown stores) (hnames : ∀ e ∈ f.outputs, Given done e.1) (habove : Reached f cells above) :
    Delivers (fun r : DataPart × Forest => Added stores done f cells v r.1 r.2)
      (v.addData context child above f).outcome := by
  refine delivers_bind (v.grow_grew context above f) fun b hb => ?_
  obtain ⟨cell, hcell, hends⟩ := hb.endsInMain hnew hstores hf (fun e he => .inl (hnames e he)) habove
  exact addFacet_added hends hnew hcell child b.known

/-- What is known of the views to come and of the names that were given so far. -/
structure Placing (stores all : String → Prop) (ts : List (Tree View)) (f : Forest) : Prop where
  sown : f.Sown stores
  names : ∃ done, Newcomers all done ((Tree.preorders ts).map View.name) ∧
    ∀ e ∈ f.outputs, Given done e.1

theorem builds_placed (all : String → Prop)
    (hstores : ∀ param, context.selections.contains param → stores (param ++ "_store")) :
    Builds context (Placing stores all) (fun f g => f.Extends g ∧ f.Linked ∧ g.Linked)
      Reached fun f cells _ t => Placed f cells t where
  refl h := ⟨.refl _, h.sown.planted.toLinked, h.sown.planted.toLinked⟩
  trans h h' := ⟨h.1.trans h'.1, h.2.1, h'.2.2⟩
  hands h habove := habove.mono h.1 h.2.1 h.2.2
  tells h hplaced := hplaced.imp _ fun v _ cells hv => hv.mono h.1 h.2.1 h.2.2
  add {v children rest f cells above} h habove := by
    obtain ⟨done, hnew, hnames⟩ := h.names
    rw [Tree.preorders_node, map_cons] at hnew
    refine (addData_added _ hnew.head hstores h.sown hnames habove).mono fun r hadded => ?_
    have hlinked := hadded.sown.planted.toLinked
    exact ⟨⟨hadded.sown, _, hnew.tail, fun e he => (hadded.names e he).given⟩,
      ⟨hadded.kept, h.sown.planted.toLinked, hlinked⟩, _, fun _ => hadded.reached,
      fun g ts hg hts => ⟨hadded.housed.mono hg.1 hlinked hg.2.2, placedAll_iff.mpr hts⟩⟩

def IsStore (context : DataContext) (name : String) : Prop :=
  ∃ param, context.selections.contains param ∧ name = param ++ "_store"

theorem withData_placed (context : DataContext) (t : Tree View)
    (hnames : ∀ v ∈ t.preorder, IsName v.name) (hnodup : (t.preorder.map View.name).Nodup) :
    Delivers (fun r : Tree View × Forest => r.2.Sown (IsStore context) ∧ Placed r.2 [] r.1 ∧
      ∀ e ∈ r.2.outputs, Given (· ∈ t.preorder.map View.name) e.1) (withData context t).outcome := by
  have hnew : Newcomers (· ∈ t.preorder.map View.name) (fun _ => False)
      ((Tree.preorders [t]).map View.name) := by
    rw [Tree.preorders, Tree.preorders, append_nil]
    refine ⟨fun a ha => ?_, fun _ => False.elim, fun a ha => ⟨ha, id⟩, hnodup⟩
    obtain ⟨v, hv, rfl⟩ := mem_map.mp ha
    exact hnames v hv
  refine ((builds_placed _ fun param hparam => ⟨param, hparam, rfl⟩).withData
    ⟨.empty _, _, hnew, by simp⟩ (by simp [Reached])).mono fun r hr => ⟨hr.1.sown, hr.2, fun e he => ?_⟩
  obtain ⟨done, hnew, hgiven⟩ := hr.1.names
  obtain ⟨a, s, ha, hkey⟩ := hgiven e he
  exact ⟨a, s, hnew.old a ha, hkey⟩

end View

end ChartPlan
