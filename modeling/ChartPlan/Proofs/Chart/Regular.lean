import ChartPlan.Proofs.Chart.Refusal
import ChartPlan.Proofs.View.Shape

/-!
# Charts as they are read

Every definition of an encoding stands under its own channel and names a field unless it counts rows,
and nothing is below a unit view. The views of a chart keep the kinds that were read.

* `Encoding.Keyed`: the definitions stand under their channels.
* `Body.Regular`: what is known of the kinds of views that are read.
* `Chart.regular_read`, `View.map_build`: charts are regular, and so are their views.
-/

namespace ChartPlan

open Checked List

/-! ### Encodings -/

/-- What is known of a definition that is read for a channel. -/
structure ChannelDef.Stands (channel : String) (d : ChannelDef) : Prop where
  channel : d.channel = channel
  field : d.aggregate = none → d.field.isSome

namespace ChannelDef

theorem stands_read (channel : String) (fields : Dict Json) :
    Delivers (fun d? : Option ChannelDef => ∀ d, d? = some d → d.Stands channel)
      (read channel fields).outcome := by
  refine fair_bind (proper_readField channel fields).fair fun field => ?_
  dsimp only
  split
  · exact fun d hd => (nomatch hd)
  · rename_i hnamed
    refine fair_bind (proper_readType _ _ _ _ _).fair fun type => ?_
    rintro d ⟨⟩
    refine ⟨rfl, fun haggregate => ?_⟩
    dsimp only at haggregate
    rw [haggregate] at hnamed
    cases field with
    | none => exact absurd rfl hnamed
    | some name => rfl

theorem stands_readItem (channel : String) (v : Json) :
    Delivers (fun d? : Option ChannelDef => ∀ d, d? = some d → d.Stands channel)
      (readItem channel v).outcome := by
  unfold readItem
  split
  · refine delivers_bind (stands_read channel _) fun d? hd => ?_
    split
    · exact hd
    · split
      · exact stands_read channel _
      · exact fun d hd => (nomatch hd)
  · exact fun d hd => (nomatch hd)

end ChannelDef

namespace Encoding

def Keyed (e : Encoding) : Prop :=
  ∀ entry ∈ e.channels, ∀ d ∈ entry.2, d.Stands entry.1

theorem stands_readChannel (channel : String) (v : Json) :
    Delivers (fun ds : List ChannelDef => ∀ d ∈ ds, d.Stands channel)
      (readChannel channel v).outcome := by
  refine delivers_bind (delivers_mapM fun item _ => ChannelDef.stands_readItem channel item)
    fun ds? hds d hd => ?_
  obtain ⟨d?, hmem, hsome⟩ := mem_filterMap.mp hd
  exact hds d? hmem d hsome

theorem keyed_read (v : Option Json) : Delivers Keyed (read v).outcome := by
  unfold read
  split
  · exact fun entry hentry => absurd hentry not_mem_nil
  · refine delivers_bind (delivers_mapM (Q := fun entry : String × List ChannelDef =>
      ∀ d ∈ entry.2, d.Stands entry.1) fun entry _ => ?_) fun channels hchannels entry hentry => ?_
    · exact delivers_bind (stands_readChannel entry.1 entry.2) fun ds hds => hds
    · exact hchannels entry (mem_filter.mp hentry).1
  · rfl

variable {e : Encoding} {channel : String} {d : ChannelDef}

theorem mem_defs_of_get? (h : e.get? channel = some d) : d ∈ e.defs := by
  unfold get? defsOf at h
  cases hdefs : e.channels.get? channel with
  | none => rw [hdefs] at h; cases h
  | some ds =>
    rw [hdefs] at h
    exact mem_flatten.mpr ⟨ds, mem_map.mpr ⟨_, Dict.mem_of_get? hdefs, rfl⟩,
      mem_of_mem_head? h⟩

theorem Keyed.stands_of_get? (he : e.Keyed) (h : e.get? channel = some d) : d.Stands channel := by
  unfold get? defsOf at h
  cases hdefs : e.channels.get? channel with
  | none => rw [hdefs] at h; cases h
  | some ds =>
    rw [hdefs] at h
    exact he _ (Dict.mem_of_get? hdefs) d (mem_of_mem_head? h)

end Encoding

/-! ### Kinds of views -/

namespace Body

mutual

/-- Nothing is below a unit view, and its definitions stand under their channels. -/
def Regular : Tree Body → Prop
  | .node body ts => (∀ mark e, body = .unit mark e → e.Keyed ∧ ts = []) ∧ RegularAll ts

def RegularAll : List (Tree Body) → Prop
  | [] => True
  | t :: rest => Regular t ∧ RegularAll rest

end

theorem regularAll_iff {ts : List (Tree Body)} : RegularAll ts ↔ ∀ t ∈ ts, Regular t := by
  induction ts with
  | nil => simp [RegularAll]
  | cons t rest ih => rw [RegularAll, ih, forall_mem_cons]

theorem regularAll_mapAll {α : Type} {see : α → Body} {ts : List (Tree α)} :
    RegularAll (Tree.mapAll see ts) ↔ ∀ t ∈ ts, Regular (t.map see) := by
  rw [regularAll_iff, Tree.mapAll_eq_map, forall_mem_map]

theorem Regular.keyed (t : Tree Body) (h : Regular t) {mark : Mark} {e : Encoding}
    (hmem : .unit mark e ∈ t.preorder) : e.Keyed := by
  induction t with
  | node body ts ih =>
    rcases mem_cons.mp hmem with hbody | hmem
    · exact (h.1 mark e hbody.symm).1
    · obtain ⟨t, ht, hmem⟩ := Tree.mem_preorders.mp hmem
      exact ih t ht (regularAll_iff.mp h.2 t ht) hmem

end Body

open Body

namespace Chart

section Children

variable {readChild : String → Json → Checked Chart}
  (hread : ∀ path v, Delivers (fun t : Chart => Regular (t.map ViewSpec.body)) (readChild path v).outcome)

include hread

theorem regular_readViews (path key : String) (v : Json) :
    Delivers (fun ts : List Chart => RegularAll (Tree.mapAll ViewSpec.body ts))
      (readViews readChild path key v).outcome := by
  unfold readViews
  split
  · exact (delivers_mapM fun entry _ => hread _ _).mono fun _ => regularAll_mapAll.mpr
  · rfl

theorem regular_readCopies (path : String) (layout spec : Json) :
    Delivers (fun ts : List Chart => RegularAll (Tree.mapAll ViewSpec.body ts))
      (readCopies readChild path layout spec).outcome := by
  unfold readCopies
  split
  · exact (delivers_mapM fun binding _ => hread _ _).mono fun _ => regularAll_mapAll.mpr
  · rfl

omit hread in
theorem regular_readUnit (path : String) (fields : Dict Json) :
    Delivers (fun r : Body × List Chart => Regular (.node r.1 (Tree.mapAll ViewSpec.body r.2)))
      (readUnit path fields).outcome := by
  unfold readUnit
  split
  · refine fair_bind (fair_readMark path _) fun mark => ?_
    refine delivers_bind (Encoding.keyed_read _) fun e he => ⟨?_, True.intro⟩
    rintro mark e ⟨⟩
    exact ⟨he, rfl⟩
  · rfl

theorem regular_readBody (path : String) (fields : Dict Json) :
    Delivers (fun r : Body × List Chart => Regular (.node r.1 (Tree.mapAll ViewSpec.body r.2)))
      (readBody readChild path fields).outcome := by
  have hother : ∀ {body : Body} {ts : List Chart}, (∀ mark e, body ≠ .unit mark e) →
      RegularAll (Tree.mapAll ViewSpec.body ts) → Regular (.node body (Tree.mapAll ViewSpec.body ts)) :=
    fun hbody hts => ⟨fun mark e he => absurd he (hbody mark e), hts⟩
  unfold readBody
  split
  · exact delivers_bind (regular_readViews hread _ _ _) fun ts hts =>
      hother (fun _ _ => Body.noConfusion) hts
  · exact delivers_bind (regular_readCopies hread _ _ _) fun ts hts =>
      hother (fun _ _ => Body.noConfusion) hts
  · refine fair_bind (FacetMapping.proper_read _).fair fun mapping => ?_
    exact delivers_bind (hread _ _) fun t ht => hother (fun _ _ => Body.noConfusion) ⟨ht, True.intro⟩
  · exact delivers_bind (regular_readViews hread _ _ _) fun ts hts =>
      hother (fun _ _ => Body.noConfusion) hts
  · exact regular_readUnit path fields

end Children

theorem regular_readDeep (fuel : Nat) (path : String) (v : Json) :
    Delivers (fun t : Chart => Regular (t.map ViewSpec.body)) (readDeep fuel path v).outcome := by
  induction fuel generalizing path v with
  | zero => trivial
  | succ fuel ih =>
    cases v with
    | obj fields =>
      refine delivers_bind (regular_readBody ih path fields) fun parts hparts => ?_
      refine delivers_bind (P := fun s : ViewSpec => s.body = parts.1) ?_ fun s hs => ?_
      · refine Fair.bind (fair_readTransforms _ _) fun transforms => ?_
        refine Fair.bind (fair_readParams _) fun params => ?_
        exact Fair.bind (DataSetting.fair_read _) fun data => rfl
      · show Regular (.node s.body (Tree.mapAll ViewSpec.body parts.2))
        rwa [hs]
    | _ => trivial

theorem regular_read (v : Json) :
    Delivers (fun t : Chart => Regular (t.map ViewSpec.body)) (read v).outcome :=
  regular_readDeep _ _ v

end Chart

namespace View

mutual

theorem map_buildNamed : (chart : Chart) → (given : String) →
    Delivers (fun t : Tree View => t.map View.body = chart.map ViewSpec.body)
      (buildNamed given chart).outcome
  | .node s children, given => by
    unfold buildNamed
    refine fair_bind (proper_stackOf s.body).fair fun stack => ?_
    exact delivers_bind (mapAll_buildAll children _ 0) fun ts hts => congrArg (Tree.node s.body) hts

theorem mapAll_buildAll : (charts : List Chart) → (names : Nat → String) → (i : Nat) →
    Delivers (fun ts : List (Tree View) =>
      Tree.mapAll View.body ts = Tree.mapAll ViewSpec.body charts) (buildAll names i charts).outcome
  | [], _, _ => rfl
  | c :: rest, names, i => by
    unfold buildAll
    refine delivers_bind (map_buildNamed c (names i)) fun t ht => ?_
    exact delivers_bind (mapAll_buildAll rest names (i + 1)) fun ts hts => congrArg₂ List.cons ht hts

end

theorem map_build (chart : Chart) :
    Delivers (fun t : Tree View => t.map View.body = chart.map ViewSpec.body) (build chart).outcome :=
  map_buildNamed chart ""

end View

end ChartPlan
