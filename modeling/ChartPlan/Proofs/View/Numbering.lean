import ChartPlan.Proofs.Flow.RowNumbers
import ChartPlan.Proofs.View.Fields
import ChartPlan.Proofs.View.Supply

/-!
# Row numbers of views

When a selection needs row numbers, every view numbers its rows at the start of its branch and again
after each aggregate. Optimization keeps these numbers unless rows are brought in beside a branch or
split into cells: the output of a lookup, or cells, may come to stand right above a node that numbers
rows, which is then taken for a needless one.

* `Branch.Counts`: the rows at the end of a branch are numbered.
* `View.withData_counts`: so are those of all main outputs in a dataflow that is not optimized.
* `compile_rows_numbered`: which row numbers are left in the optimized dataflow of a chart.
* `compile_rows_lost`: a lookup and a faceted view, each of which costs a view its row numbers.
-/

namespace ChartPlan

open Flow

/-! ### Forests that grow -/

namespace Flow.Forest

variable {f g : Forest} {i p : NodeId} {n : Node}

namespace StaysIn

theorem identified (hfg : f.StaysIn g) (h : f.Identified i) : g.Identified i := by
  induction h with
  | here hn =>
    rcases hfg.node hn with hn | ⟨_, _, he, -⟩
    · exact .here hn
    · cases he
  | passed hn hagg hp _ ih =>
    have hp' := (hfg.parent (contains_of_node? hn)).trans hp
    rcases hfg.node hn with hn | ⟨_, _, -, hn⟩
    · exact .passed hn hagg hp' ih
    · exact .passed hn rfl hp' ih

theorem steady (hfg : f.StaysIn g) (h : f.Steady i) : g.Steady i := by
  induction h with
  | ground hground =>
    obtain ⟨n, hn, hground⟩ := holds_iff.mp hground
    rcases hfg.node hn with hn | ⟨_, _, -, hn⟩
    · exact .ground ((holds_of_node? hn).trans hground)
    · exact .ground (holds_of_node? hn)
  | coercion hn hp _ ih =>
    have hp' := (hfg.parent (contains_of_node? hn)).trans hp
    rcases hfg.node hn with hn | ⟨_, _, he, -⟩
    · exact .coercion hn hp' ih
    · cases he
  | identified hid => exact .identified (hfg.identified hid)

theorem secure (hfg : f.StaysIn g) (h : f.Secure)
    (hold : ∀ {j k}, g.node? j = some k → k.isDataSource = false → f.node? j = some k) : g.Secure where
  identifier hn hp := by
    have hn' := hold hn rfl
    exact hfg.steady (h.identifier hn' ((hfg.parent (contains_of_node? hn')).symm.trans hp))
  output hn := hfg.identified (h.output (hold hn rfl))
  unfaceted i facet hn := h.unfaceted i facet (hold hn rfl)

end StaysIn

namespace Planted

theorem secure_add (hf : f.Planted) (h : f.Secure) (hid : n = .identifier → f.Steady p)
    (hout : ∀ o, n = .output o → f.Identified p) (hfacet : ∀ m, n ≠ .facet m) :
    (f.add n (some p)).1.Secure := by
  have hkeeps := hf.staysIn_add n (some p)
  have hparent : (f.add n (some p)).1.parent? (f.add n (some p)).2 = some p :=
    (hf.parent?_add _ _ _).trans (if_pos rfl)
  refine ⟨⟨fun {j q} hk hq => ?_, fun {j o} hk => ?_⟩, fun j m hk => ?_⟩
  · rcases hf.arena.node?_of_add hk with ⟨rfl, rfl⟩ | hk
    · cases hparent.symm.trans hq
      exact hkeeps.steady (hid rfl)
    · exact hkeeps.steady (h.identifier hk ((hkeeps.parent (contains_of_node? hk)).symm.trans hq))
  · rcases hf.arena.node?_of_add hk with ⟨rfl, rfl⟩ | hk
    · exact .passed (hf.arena.node?_add_self _ _) rfl hparent (hkeeps.identified (hout o rfl))
    · exact hkeeps.identified (h.output hk)
  · rcases hf.arena.node?_of_add hk with ⟨rfl, rfl⟩ | hk
    · exact hfacet m rfl
    · exact h.unfaceted j m hk

end Planted

theorem secure_empty : Secure {} where
  identifier hn _ := by cases hn
  output hn := by cases hn
  unfaceted i facet hn := by cases hn

end Flow.Forest

/-! ### Branches -/

/-- A branch grew out of a forest, and the rows at its end may be numbered. What is `free` of lookups
in rows beside it and of cells cannot lose row numbers. -/
structure Branch.Stands (free : Prop) (f : Forest) (b : Branch) : Prop where
  grew : b.GrewFrom f
  steady : b.forest.Steady b.tip
  secure : free → b.forest.Secure

/-- The rows at the end of a branch are numbered. -/
structure Branch.Counts (free : Prop) (f : Forest) (b : Branch) : Prop
    extends b.Stands free f where
  numbered : b.forest.Identified b.tip

namespace Branch

open Checked Forest

variable {free : Prop} {f : Forest} {b b' : Branch} {n : Node} {context : DataContext}
  {v : View}

theorem node?_push (h : b.forest.Planted) (n : Node) :
    (b.push n).forest.node? (b.push n).tip = some n :=
  h.arena.node?_add_self n (some b.tip)

theorem parent?_push (h : b.forest.Planted) (n : Node) :
    (b.push n).forest.parent? (b.push n).tip = some b.tip :=
  (h.parent?_add _ _ _).trans (if_pos rfl)

theorem Stands.push (h : b.Stands free f) (hn : n.isDataSource = false)
    (hout : ∀ o, n = .output o → b.forest.Identified b.tip) (hfacet : free → ∀ m, n ≠ .facet m)
    (hsteady : (b.push n).forest.Steady (b.push n).tip) : (b.push n).Stands free f where
  grew := h.grew.push hn
  steady := hsteady
  secure hfree := h.grew.planted.secure_add (h.secure hfree) (fun _ => h.steady) hout (hfacet hfree)

theorem Stands.relearn (h : b.Stands free f) (known : KnownKinds) : Stands free f { b with known } :=
  ⟨h.grew, h.steady, h.secure⟩

theorem Stands.identify (h : b.Stands free f) : b.identify.Counts free f := by
  have hid : b.identify.forest.Identified b.identify.tip := .here (node?_push h.grew.planted _)
  exact ⟨h.push rfl (fun _ ho => nomatch ho) (fun _ _ hm => nomatch hm) (.identified hid), hid⟩

theorem Stands.coerce (h : b.Stands free f) (c : Coercion) : (b.push (.parse c)).Stands free f :=
  h.push rfl (fun _ ho => nomatch ho) (fun _ _ hm => nomatch hm)
    (.coercion (node?_push h.grew.planted _) (parent?_push h.grew.planted _)
      ((h.grew.planted.staysIn_add (.parse c) (some b.tip)).steady h.steady))

namespace Counts

variable (h : b.Counts free f)

include h

theorem push (hn : n.isDataSource = false) (hagg : n.aggregate? = none)
    (hfacet : free → ∀ m, n ≠ .facet m) : (b.push n).Counts free f := by
  have hid : (b.push n).forest.Identified (b.push n).tip :=
    .passed (node?_push h.grew.planted n) hagg (parent?_push h.grew.planted n)
      ((h.grew.planted.staysIn_add n (some b.tip)).identified h.numbered)
  exact ⟨h.toStands.push hn (fun _ _ => h.numbered) hfacet (.identified hid), hid⟩

theorem plain (hn : n.isPlain) : (b.push n).Counts free f := by
  refine h.push (Node.isDataSource_of_isPlain hn) ?_ ?_
  · cases n <;> first | rfl | cases hn
  · rintro - m rfl
    cases hn

theorem aggregate (a : Aggregate) (known : KnownKinds) :
    (identify { b.push (.aggregate a) with known }).Counts free f := by
  have hground : (b.push (.aggregate a)).forest.Steady (b.push (.aggregate a)).tip :=
    .ground (holds_of_node? (node?_push h.grew.planted _))
  exact ((h.toStands.push (n := .aggregate a) rfl (fun _ ho => nomatch ho) (fun _ _ hm => nomatch hm)
    hground).relearn known).identify

theorem move (hgrew : b'.GrewFrom f) (htip : b'.tip = b.tip)
    (hnode : ∀ j, b'.forest.node? j = b.forest.node? j)
    (hparent : ∀ j, b'.forest.parent? j = b.forest.parent? j) : b'.Counts free f := by
  have hkeeps : b.forest.StaysIn b'.forest :=
    ⟨fun {j _} hn => .inl ((hnode j).trans hn), fun {j} _ => hparent j⟩
  have hid : b'.forest.Identified b'.tip := htip ▸ hkeeps.identified h.numbered
  refine ⟨⟨hgrew, .identified hid, fun hfree => ?_⟩, hid⟩
  exact hkeeps.secure (h.secure hfree) fun {j _} hk _ => (hnode j).symm.trans hk

theorem freshId : Counts free f { b with forest := b.forest.freshId.1 } :=
  h.move h.grew.freshId rfl (fun _ => rfl) fun _ => rfl

theorem output (name : String) (kind : OutputKind) : (b.output name kind).Counts free f := by
  have hpushed : Counts free f _ := h.freshId.push (n := .output (.fresh name kind b.forest.freshId.2)) rfl
    rfl fun _ _ hm => nomatch hm
  exact hpushed.move (h.grew.output name kind) rfl (fun _ => rfl) fun _ => rfl

theorem request (name : String) : (b.request name).Counts free f :=
  h.move (h.grew.request name) rfl (fun _ => rfl) fun _ => rfl

theorem lookupSource (hfree : ¬ free) {data : Json} {name : String}
    (hb : b.lookupSource data name = .ok b') : b'.Counts free f := by
  obtain ⟨hgrew, hkeeps, htip, -⟩ := h.grew.lookupSource hb
  have hid : b'.forest.Identified b'.tip := htip ▸ hkeeps.identified h.numbered
  exact ⟨⟨hgrew, .identified hid, fun h => absurd h hfree⟩, hid⟩

theorem relearn (known : KnownKinds) : Counts free f { b with known } :=
  ⟨h.toStands.relearn known, h.numbered⟩

theorem split (hfree : ¬ free) (main : String) (m : Facet) :
    (b.split main m).Counts free f := by
  exact (h.freshId.push (n := .facet m) rfl rfl fun h => absurd h hfree).move (h.grew.split main m) rfl
    (fun _ => rfl) fun _ => rfl

end Counts

theorem Grows.counts {x y : Branch × Nat} (h : Grows context v x y) (hids : context.rowIds)
    (hfree : free → ∀ t ∈ v.transforms, t.block? = none) (hx : x.1.Counts free f) :
    y.1.Counts free f := by
  cases h with
  | learn _ => exact hx.relearn _
  | push hn _ => exact (hx.plain hn).relearn _
  | aggregate _ =>
    rw [if_pos hids]
    exact hx.aggregate _ _
  | @search _ _ l _ _ _ _ _ => exact (hx.push (n := .lookup l) rfl rfl fun _ _ hm => nomatch hm).relearn _
  | @join _ _ _ l _ _ _ ht hblock hb _ _ =>
    have hnot : ¬ free := fun h => by
      rw [hfree h _ ht] at hblock
      cases hblock
    exact ((hx.lookupSource hnot hb).push (n := .lookup l) rfl rfl fun _ _ hm => nomatch hm).relearn _

end Branch

/-! ### Views -/

namespace View

open Checked Forest

variable {free : Prop} {f g : Forest} {v : View} {above : Option Above} {b : Branch}
  {context : DataContext}

def Numbers (f : Forest) : Option Above → Prop
  | none => True
  | some a => Reaches f a.part ∧ f.Identified (a.part.facet.getD a.part.main)

theorem Numbers.mono (h : Numbers f above) (hfg : f.StaysIn g) : Numbers g above := by
  cases above with
  | none => exact h
  | some a => exact ⟨h.1.mono hfg.contains, hfg.identified h.2⟩

theorem Numbers.reaches (h : Numbers f above) : ∀ a, above = some a → Reaches f a.part := by
  rintro a rfl
  exact h.1

theorem rootOf_stands (v : View) (hf : f.Planted) (hsecure : free → f.Secure) (h : Numbers f above)
    (known : KnownKinds) :
    Branch.Stands free f ⟨(v.rootOf above f).1, (v.rootOf above f).2, known⟩ := by
  have hgrew := v.rootOf_sprouts hf h.reaches
  rcases v.rootOf_cases hf above with ⟨a, hdata, rfl⟩ | ⟨-, hroot⟩
  · unfold rootOf at hgrew ⊢
    rw [hdata] at hgrew ⊢
    exact ⟨hgrew, .identified h.2, hsecure⟩
  · obtain ⟨n, hn, hsource⟩ := holds_iff.mp hroot.source
    refine ⟨hgrew, .ground (holds_iff.mpr ⟨n, hn, ?_⟩), fun hfree => hroot.stays.secure (hsecure hfree) hroot.old⟩
    rw [Node.isGround, hsource, Bool.true_or]

theorem Grew.counts (h : v.Grew context above f b) (hids : context.rowIds) (hf : f.Planted)
    (hsecure : free → f.Secure) (habove : Numbers f above)
    (hfree : free → ∀ t ∈ v.transforms, t.block? = none) : b.Counts free f := by
  refine h.keeps (P := fun b : Branch => b.Counts free f) (fun hstart => ?_)
    (fun hstep => hstep.counts hids hfree) (fun name kind hb => hb.output name kind)
    fun name hb => hb.request name
  have hroot := v.rootOf_stands hf hsecure habove
  cases hstart with
  | root _ => exact (hroot _).identify
  | parse _ => exact (((hroot _).coerce _).relearn _).identify

theorem addFacet_counts (v : View) (child : Option View) (h : b.Counts free f)
    (hfree : free → v.isFacet = false) : (free → (v.addFacet child b).value.1.Secure) ∧
      (v.addFacet child b).value.1.Identified ((v.addFacet child b).value.2.getD b.tip) := by
  rcases v.addFacet_cases child b with ⟨-, heq⟩ | ⟨mapping, hbody, heq⟩
  · rw [heq]
    exact ⟨h.secure, h.numbered⟩
  · have hnot : ¬ free := fun h => by
      have := hfree h
      rw [isFacet, hbody] at this
      cases this
    rw [heq]
    exact ⟨fun h => absurd h hnot, (h.split hnot _ _).numbered⟩

def MainNumbered (f : Forest) (v : View) : Prop :=
  ∃ part, v.dataPart = some part ∧ f.Identified part.main

theorem MainNumbered.mono (h : v.MainNumbered f) (hfg : f.StaysIn g) : v.MainNumbered g := by
  obtain ⟨part, hpart, hid⟩ := h
  exact ⟨part, hpart, hfg.identified hid⟩

/-- Whether a view neither looks up rows beside its own nor splits them into cells. -/
def isSimple (v : View) : Bool :=
  !v.isFacet && v.transforms.all fun t => t.block?.isNone

theorem addData_counts (v : View) (child : Option View) (hids : context.rowIds) (hf : f.Planted)
    (hsecure : free → f.Secure) (habove : Numbers f above) (hfree : free → v.isSimple) :
    Delivers (fun r : DataPart × Forest => r.2.Planted ∧ f.StaysIn r.2 ∧ (free → r.2.Secure) ∧
      MainNumbered r.2 { v with dataPart := some r.1 } ∧ Numbers r.2 (some ⟨r.1, v.isLayer⟩))
      (v.addData context child above f).outcome := by
  have hblock : free → ∀ t ∈ v.transforms, t.block? = none := fun h t ht => by
    have hsimple := hfree h
    simp only [isSimple, Bool.and_eq_true, List.all_eq_true, Option.isNone_iff_eq_none] at hsimple
    exact hsimple.2 t ht
  have hfacet : free → v.isFacet = false := fun h => by
    have hsimple := hfree h
    simp only [isSimple, Bool.and_eq_true, Bool.not_eq_true'] at hsimple
    exact hsimple.1
  refine delivers_bind (v.grow_grew context above f) fun b hb => ?_
  have hcounts : b.Counts free f := hb.counts hids hf hsecure habove hblock
  obtain ⟨hplanted, hkeeps, hreaches⟩ := v.addFacet_sprouts child hcounts.grew
  obtain ⟨hsecure', hid⟩ := v.addFacet_counts child hcounts hfacet
  exact ⟨hplanted, hcounts.grew.stays.trans hkeeps, hsecure',
    ⟨_, rfl, hkeeps.identified hcounts.numbered⟩, hreaches, hid⟩

theorem builds_counts (hids : context.rowIds) : Builds (σ := Unit) context
    (fun ts f => (free → ∀ v ∈ Tree.preorders ts, v.isSimple) ∧ f.Planted ∧ (free → f.Secure)) StaysIn
    (fun f _ above => Numbers f above) fun f _ _ t => ∀ v ∈ t.preorder, v.MainNumbered f where
  refl _ := .refl _
  trans := .trans
  hands hstays h := h.mono hstays
  tells hstays h v hv := (h v hv).mono hstays
  add {v children rest f s above} hinv habove := by
    obtain ⟨hfree, hf, hsecure⟩ := hinv
    rw [Tree.preorders_node] at hfree
    refine (v.addData_counts _ hids hf hsecure habove fun h => hfree h v List.mem_cons_self).mono
      fun r hr => ?_
    obtain ⟨hplanted, hstays, hsecure, hmain, hnumbers⟩ := hr
    refine ⟨⟨fun h w hw => hfree h w (List.mem_cons_of_mem v hw), hplanted, hsecure⟩, hstays, (),
      fun _ => hnumbers, fun g ts hg hts w hw => ?_⟩
    rcases List.mem_cons.mp hw with rfl | hw
    · exact hmain.mono hg
    · obtain ⟨t, ht, hw⟩ := Tree.mem_preorders.mp hw
      exact hts t ht w hw

/-- All views have numbered rows at their main outputs when a selection needs the numbers. Those of
simple views are secure. -/
theorem withData_counts (hids : context.rowIds) (t : Tree View) :
    Delivers (fun r : Tree View × Forest => r.2.Planted ∧
      ((∀ v ∈ t.preorder, v.isSimple) → r.2.Secure) ∧ ∀ v ∈ r.1.preorder, v.MainNumbered r.2)
      (withData context t).outcome := by
  have hinv : (∀ v ∈ t.preorder, v.isSimple) → ∀ v ∈ Tree.preorders [t], v.isSimple :=
    fun h v hv => h v (List.append_nil t.preorder ▸ hv)
  exact ((builds_counts hids).withData (s := ()) ⟨hinv, planted_empty, fun _ => secure_empty⟩
    True.intro).mono fun _ hr => ⟨hr.1.2.1, hr.1.2.2, hr.2⟩

end View

/-! ### Charts -/

theorem Tree.forall_of_map_eq {α β : Type} {see : α → β} {P : β → Prop} {t u : Tree α}
    (h : t.map see = u.map see) (hu : ∀ a ∈ u.preorder, P (see a)) : ∀ a ∈ t.preorder, P (see a) := by
  intro a ha
  obtain ⟨b, hb, hsame⟩ := exists_of_map h ha
  exact hsame ▸ hu b hb

/-- A chart with a selection that needs row numbers. In its dataflow, the rows of the main output of
every view are numbered, and no aggregate follows. Optimization keeps row numbers at all outputs when
no view looks up rows beside its own or splits them into cells; the main outputs of unit views are among
these outputs when the views have different names. -/
theorem compile_rows_numbered {given : Config} {spec : Json} (c : Compilation given spec)
    (hids : View.needsRowIds c.views) :
    (compile given spec).outcome = .ok c.compiled ∧
    (∀ v ∈ c.views.preorder, ∃ part, v.dataPart = some part ∧ c.grown.2.isNumbered part.main) ∧
    ((∀ v ∈ c.views.preorder, v.isSimple) →
      (∀ i o, c.forest.node? i = some (.output o) → c.forest.isNumbered i) ∧
      (View.Apart c.named → ∀ v ∈ c.views.preorder, v.unit?.isSome → ∃ part o,
        v.dataPart = some part ∧ o.name = v.inner "main" ∧
        c.forest.node? part.main = some (.output o) ∧ c.forest.isNumbered part.main)) := by
  have hrowIds : c.context.rowIds = true := by
    rwa [View.needsRowIds, c.selections_views] at hids
  obtain ⟨hplanted, hsecure, hmain⟩ :=
    (View.withData_counts hrowIds c.projected.1).of_eq_ok c.grown_eq
  refine ⟨compile_eq_ok_iff.mpr ⟨c, rfl⟩, ?_, fun hsimple => ?_⟩
  · have hmap : c.views.map View.dataPart = c.grown.1.map View.dataPart :=
      c.map_views fun _ _ _ => rfl
    refine Tree.forall_of_map_eq (P := fun place => ∃ part, place = some part ∧
      c.grown.2.isNumbered part.main) hmap fun v hv => ?_
    obtain ⟨part, hpart, hid⟩ := hmain v hv
    exact ⟨part, hpart, hplanted.isNumbered_of_identified hid⟩
  · have hmap : c.projected.1.map View.isSimple = c.views.map View.isSimple :=
      ((c.map_views fun _ _ _ => rfl).trans (View.map_withData (fun _ _ => rfl) c.grown_eq)).symm
    have hall : ∀ v ∈ c.projected.1.preorder, v.isSimple :=
      Tree.forall_of_map_eq (P := fun simple => simple = true) hmap hsimple
    obtain ⟨hplanted', hguarded⟩ := (hsecure hall).optimize hplanted (hrowIds ▸ c.optimized_eq)
    have hnumbered : ∀ i o, c.forest.node? i = some (.output o) → c.forest.isNumbered i :=
      fun i o ho => hplanted'.isNumbered_of_identified (hguarded.output ho)
    refine ⟨hnumbered, fun hapart v hv hunit => ?_⟩
    have horderly := Compilation.Orderly.of_apart hapart
    obtain ⟨cells, hhoused⟩ := View.Placed.housed c.views horderly.placed v hv
    obtain ⟨part, o, hpart, hname, hfinds⟩ := hhoused.main hunit
    have hnode := horderly.housing.keeps.node hfinds.node hfinds.vital
    exact ⟨part, o, hpart, hname, hnode, hnumbered _ o hnode⟩

/-- Points that are selected, and totals of the same rows. -/
def selectedPoints : Json :=
  let place (field : String) : Json :=
    .object [("x", .object [("field", .str field), ("type", .str "quantitative")])]
  .object [
    ("data", .object [("values", .arr [.object [("a", .nat 1), ("b", .nat 2)]])]),
    ("layer", .arr [
      .object [("params", .arr [.object [("name", .str "p"), ("select", .str "point")]]),
        ("mark", .str "point"), ("encoding", place "a")],
      .object [("transform", .arr [.object [("groupby", .texts ["a"]), ("aggregate", .arr [
          .object [("op", .str "sum"), ("field", .str "b"), ("as", .str "total")]])]]),
        ("mark", .str "point"), ("encoding", place "total")]])]

theorem compile_selectedPoints : ∃ c : Compilation {} selectedPoints,
    (compile {} selectedPoints).outcome = .ok c.compiled ∧ View.needsRowIds c.views ∧
    (∀ v ∈ c.views.preorder, v.isSimple) ∧ View.Apart c.named ∧
    c.views.preorder.map (fun v => (v.name, v.unit?.isSome)) =
      [("", false), ("layer_0", true), ("layer_1", true)] ∧
    ∀ v ∈ c.views.preorder, v.unit?.isSome → ∃ part o, v.dataPart = some part ∧
      o.name = v.inner "main" ∧ c.forest.node? part.main = some (.output o) ∧
      c.forest.isNumbered part.main := by
  have hfacts : (Compilation.run {} selectedPoints).map (fun c => (View.needsRowIds c.views,
      c.views.preorder.all View.isSimple, c.named.preorder.map View.name,
      c.views.preorder.map fun v => (v.name, v.unit?.isSome))) =
      some (true, true, ["", "layer_0", "layer_1"],
        [("", false), ("layer_0", true), ("layer_1", true)]) := by
    decide +kernel
  obtain ⟨c, -, hfacts⟩ := Option.map_eq_some_iff.mp hfacts
  simp only [Prod.mk.injEq, List.all_eq_true] at hfacts
  obtain ⟨hids, hsimple, hnames, hviews⟩ := hfacts
  have hapart : View.Apart c.named := by
    refine ⟨hnames ▸ by decide, ?_⟩
    rw [hnames]
    decide
  obtain ⟨hcompile, -, hnumbered⟩ := compile_rows_numbered c hids
  exact ⟨c, hcompile, hids, hsimple, hapart, hviews, (hnumbered hsimple).2 hapart⟩

/-- Points that are selected, with fields that are looked up in the rows of the points themselves. -/
def selfLookup : Json :=
  let rows : Json := .object [("values", .arr [.object [("a", .nat 1)]])]
  .object [
    ("data", rows),
    ("params", .arr [.object [("name", .str "p"), ("select", .str "point")]]),
    ("transform", .arr [.object [("lookup", .str "a"),
      ("from", .object [("data", rows), ("key", .str "a"), ("fields", .texts ["b"])])]]),
    ("mark", .str "point"),
    ("encoding", .object [("x", .object [("field", .str "a"), ("type", .str "quantitative")])])]

/-- Two layers in cells that aggregate as often as passes run; the one of them needs a coercion. -/
def splitExtremes : Json :=
  let layer (op name : String) (more : List (String × Json)) : Json :=
    .object ([("transform", .arr (List.replicate Flow.maxRuns (.object [("groupby", .texts []),
        ("aggregate", .arr [.object [("op", .str op), ("field", .str "b"), ("as", .str name)]])]))),
      ("mark", .str "point")] ++ more)
  .object [
    ("data", .object [("values", .arr [])]),
    ("facet", .object [("row", .object [("field", .str "c"), ("type", .str "nominal")])]),
    ("spec", .object [("layer", .arr [
      layer "min" "s" [("params", .arr [.object [("name", .str "p"), ("select", .str "point")]]),
        ("encoding", .object [("x", .object [("field", .str "s"), ("type", .str "temporal")])])],
      layer "max" "m" []])])]

/-- Whether a unit view loses the row numbers that it had. -/
def Compilation.losesNumbers {given : Config} {spec : Json} (c : Compilation given spec) : Bool :=
  c.views.preorder.any fun v => v.unit?.isSome && v.dataPart.any fun part =>
    c.grown.2.isNumbered part.main && c.forest.holds part.main Node.isOutput &&
      !c.forest.isNumbered part.main

/-- Neither lookups nor cells can be left out of account. The output of a lookup comes to stand above
the node that numbers rows, which is then dropped. When the passes are given up while two nodes below
an aggregate number its rows, cells come to stand between them and the aggregate, and both are
dropped. -/
theorem compile_rows_lost :
    (∃ c : Compilation {} selfLookup, (compile {} selfLookup).outcome = .ok c.compiled ∧
      View.needsRowIds c.views ∧ (∀ v ∈ c.views.preorder, v.isFacet = false) ∧ c.losesNumbers) ∧
    ∃ c : Compilation {} splitExtremes, (compile {} splitExtremes).outcome = .ok c.compiled ∧
      View.needsRowIds c.views ∧ (∀ v ∈ c.views.preorder, ∀ t ∈ v.transforms, t.block? = none) ∧
      c.losesNumbers := by
  have hlookup : (Compilation.run {} selfLookup).map (fun c => [View.needsRowIds c.views,
      c.views.preorder.all fun v => !v.isFacet, c.losesNumbers]) = some [true, true, true] := by
    decide +kernel
  have hcells : (Compilation.run {} splitExtremes).map (fun c => [View.needsRowIds c.views,
      c.views.preorder.all fun v => v.transforms.all fun t => t.block?.isNone, c.losesNumbers]) =
      some [true, true, true] := by
    decide +kernel
  obtain ⟨c, -, hlookup⟩ := Option.map_eq_some_iff.mp hlookup
  obtain ⟨d, -, hcells⟩ := Option.map_eq_some_iff.mp hcells
  simp only [List.cons.injEq, and_true, List.all_eq_true, Bool.not_eq_true',
    Option.isNone_iff_eq_none] at hlookup hcells
  exact ⟨⟨c, compile_eq_ok_iff.mpr ⟨c, rfl⟩, hlookup⟩, ⟨d, compile_eq_ok_iff.mpr ⟨d, rfl⟩, hcells⟩⟩

end ChartPlan
