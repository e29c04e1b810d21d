import ChartPlan.Proofs.Chart.Refusal
import ChartPlan.Proofs.Json.Fields

/-!
# Charts without names

A view need not be named, and the copies of a repeated view are named after the fields that they
show. So in a chart in which no view is named, only copies have names.

* `Unnamed`: no view of an input is named.
* `Anonymous`: in a chart, only copies have names.
* `anonymous_read`: an unnamed input is read as an anonymous chart.
-/

namespace ChartPlan.Chart

open ChartPlan.Checked List Option

/-! ### Inputs -/

/-- The views that are written inside a view, repeated ones before they are repeated. -/
def viewsIn (v : Json) : List Json :=
  match v.field? "layer", v.field? "repeat", v.field? "facet", v.field? "spec",
      concatKeys.find? fun key => (v.field? key).isSome with
  | some layers, _, _, _, _ => layers.items?.getD []
  | none, some _, _, some spec, _ => [spec]
  | none, none, some _, some spec, _ => [spec]
  | _, _, _, _, some key => ((v.field? key).bind Json.items?).getD []
  | _, _, _, _, none => []

/-- No view of an input is named. -/
inductive Unnamed : Json → Prop
  | view {v : Json} : v.textField? "name" = none → (∀ w ∈ viewsIn v, Unnamed w) → Unnamed v

/-- Whether no view is named in an input that nests at most `fuel` deep. -/
def isUnnamed : Nat → Json → Bool
  | 0, _ => false
  | fuel + 1, v => (v.textField? "name").isNone && (viewsIn v).all (isUnnamed fuel)

theorem unnamed_of_isUnnamed (fuel : Nat) {v : Json} (h : isUnnamed fuel v) : Unnamed v := by
  induction fuel generalizing v with
  | zero => cases h
  | succ fuel ih =>
    rw [isUnnamed, Bool.and_eq_true, Option.isNone_iff_eq_none, List.all_eq_true] at h
    exact .view h.1 fun w hw => ih (h.2 w hw)

def viewKeys : List String :=
  ["layer", "repeat", "facet", "spec"] ++ concatKeys

theorem viewsIn_map {v w : Json} {g : Json → Json}
    (hitems : ∀ u, (g u).items? = u.items?.map (List.map g))
    (hfield : ∀ key ∈ viewKeys, w.field? key = (v.field? key).map g) :
    viewsIn w = (viewsIn v).map g := by
  have hlist : ∀ u : Option Json,
      ((u.map g).bind Json.items?).getD [] = ((u.bind Json.items?).getD []).map g := by
    intro u
    cases u with
    | none => rfl
    | some u =>
      simp only [map_some, bind_some, hitems]
      cases u.items? <;> rfl
  have hfind : concatKeys.find? (fun key => (w.field? key).isSome) =
      concatKeys.find? fun key => (v.field? key).isSome := by
    unfold concatKeys
    simp only [List.find?_cons, List.find?_nil, hfield "concat" (by decide),
      hfield "hconcat" (by decide), hfield "vconcat" (by decide), isSome_map]
  have hconcat : ∀ key, concatKeys.find? (fun key => (v.field? key).isSome) = some key →
      key ∈ viewKeys :=
    fun key hkey => mem_append_right _ (mem_of_find?_eq_some hkey)
  unfold viewsIn
  rw [hfind, hfield "layer" (by decide), hfield "repeat" (by decide), hfield "facet" (by decide),
    hfield "spec" (by decide)]
  generalize concatKeys.find? (fun key => (v.field? key).isSome) = concat at hconcat
  cases v.field? "layer" with
  | some layers => exact hlist (some layers)
  | none =>
    cases v.field? "repeat" <;> cases v.field? "facet" <;> cases v.field? "spec" <;>
      cases concat with
      | none => rfl
      | some key =>
        first
        | rfl
        | simp only [Option.map, hfield key (hconcat key rfl)]
          exact hlist _

/-! ### Copies -/

section

variable (binding : Dict String)

theorem get?_bindFields (fields : Dict Json) {key : String} (hkey : key ≠ "field") :
    Dict.get? (bindFields binding fields) key = (fields.get? key).map (bindRefs binding) := by
  induction fields with
  | nil => rfl
  | cons entry rest ih =>
    obtain ⟨k, v⟩ := entry
    unfold bindFields
    by_cases hk : key = k
    · have hbound : boundField? binding k v = none := if_neg (hk ▸ hkey)
      rw [hbound]
      simp [Dict.get?, hk]
    · cases boundField? binding k v <;> simpa [Dict.get?, hk] using ih

theorem field?_bindRefs (v : Json) {key : String} (hkey : key ≠ "field") :
    (bindRefs binding v).field? key = (v.field? key).map (bindRefs binding) := by
  cases v with
  | obj fields => exact get?_bindFields binding fields hkey
  | _ => rfl

theorem bindItems_eq (items : List Json) :
    bindItems binding items = items.map (bindRefs binding) := by
  induction items with
  | nil => rfl
  | cons v rest ih => rw [bindItems, ih, map_cons]

theorem items?_bindRefs (v : Json) :
    (bindRefs binding v).items? = v.items?.map (List.map (bindRefs binding)) := by
  cases v with
  | arr items => exact congrArg some (bindItems_eq binding items)
  | _ => rfl

theorem text?_bindRefs (v : Json) : (bindRefs binding v).text? = v.text? := by
  cases v <;> rfl

end

theorem Unnamed.bindRefs {v : Json} (h : Unnamed v) (binding : Dict String) :
    Unnamed (bindRefs binding v) := by
  induction h with
  | @view v hname _ ih =>
    refine .view ?_ fun w hw => ?_
    · unfold Json.textField?
      rw [field?_bindRefs binding v (by decide), bind_map]
      exact (congrArg _ (funext (text?_bindRefs binding))).trans hname
    · rw [viewsIn_map (items?_bindRefs binding) fun key hkey =>
        field?_bindRefs binding v fun he => absurd (he ▸ hkey) (by decide)] at hw
      obtain ⟨u, hu, rfl⟩ := mem_map.mp hw
      exact ih u hu

/-- A view without a name, or a copy; the views inside are not named. -/
structure Nameless (v : Json) : Prop where
  name : ∀ name, v.textField? "name" = some name → ∃ binding, name = copyName binding
  views : ∀ w ∈ viewsIn v, Unnamed w

theorem Unnamed.nameless {v : Json} (h : Unnamed v) : Nameless v := by
  cases h with
  | view hname hviews => exact ⟨fun name h => (nomatch hname.symm.trans h), hviews⟩

theorem Unnamed.nameless_copy {v : Json} (h : Unnamed v) (binding : Dict String) :
    Nameless (copy binding v) := by
  have hbound := (h.bindRefs binding).nameless
  unfold copy
  generalize Chart.bindRefs binding v = bound at hbound
  cases bound with
  | obj fields =>
    dsimp only
    unfold Dict.insertIfNew
    split
    · exact hbound
    · have hfield : ∀ key, (Json.obj (Dict.insert fields "name" (.str (copyName binding)))).field? key =
          if key = "name" then some (.str (copyName binding)) else (Json.obj fields).field? key :=
        fun key => Dict.get?_insert fields "name" key _
      refine ⟨fun name hname => ⟨binding, ?_⟩, ?_⟩
      · unfold Json.textField? at hname
        rw [hfield, if_pos rfl] at hname
        exact (Option.some.inj hname).symm
      · have hviews : viewsIn _ = (viewsIn (Json.obj fields)).map id :=
          viewsIn_map (fun u => by simp) fun key hkey => by
            rw [hfield, if_neg fun he => absurd (he ▸ hkey) (by decide), Option.map_id]
            rfl
        rw [hviews, List.map_id]
        exact hbound.views
  | _ => exact hbound

/-! ### Charts -/

/-- Only copies have names. A faceted view holds one view. -/
inductive Anonymous : Chart → Prop
  | node {s : ViewSpec} {ts : List Chart} :
      (∀ name, s.name = some name → ∃ binding, name = copyName binding) →
      (∀ mapping, s.body = .facet mapping → ts.length ≤ 1) →
      (∀ t ∈ ts, Anonymous t) → Anonymous (.node s ts)

/-- The kind of a view and the anonymous views below it. -/
structure Parted (parts : Body × List Chart) : Prop where
  one : ∀ mapping, parts.1 = .facet mapping → parts.2.length ≤ 1
  views : ∀ t ∈ parts.2, Anonymous t

theorem parted_of_views {body : Body} (hbody : ∀ mapping, body ≠ .facet mapping)
    {x : Checked (List Chart)} (hx : Delivers (fun ts => ∀ t ∈ ts, Anonymous t) x.outcome) :
    Delivers Parted (x >>= fun ts => pure (body, ts)).outcome :=
  delivers_bind hx fun _ hts => Parted.mk (fun mapping h => absurd h (hbody mapping)) hts

section Children

variable {readChild : String → Json → Checked Chart}
  (hread : ∀ path v, Nameless v → Delivers Anonymous (readChild path v).outcome)

include hread

theorem anonymous_readViews (path key : String) {v : Json} (hv : ∀ w ∈ v.items?.getD [], Unnamed w) :
    Delivers (fun ts => ∀ t ∈ ts, Anonymous t) (readViews readChild path key v).outcome := by
  unfold readViews
  split
  · refine delivers_mapM fun entry hentry => hread _ _ ?_
    obtain ⟨child, i⟩ := entry
    exact (hv child (fst_mem_of_mem_zipIdx hentry)).nameless
  · rfl

theorem anonymous_readCopies (path : String) (layout : Json) {spec : Json} (hspec : Unnamed spec) :
    Delivers (fun ts => ∀ t ∈ ts, Anonymous t) (readCopies readChild path layout spec).outcome := by
  unfold readCopies
  split
  · exact delivers_mapM fun binding _ => hread _ _ (hspec.nameless_copy binding)
  · rfl

theorem parted_readBody (path : String) {fields : Dict Json}
    (hviews : ∀ w ∈ viewsIn (.obj fields), Unnamed w) :
    Delivers Parted (readBody readChild path fields).outcome := by
  have hconcat : ∀ key, (∀ w ∈ ((fields.get? key).bind Json.items?).getD [], Unnamed w) →
      Delivers Parted (readViews readChild path key ((fields.get? key).getD .null) >>= fun ts =>
        pure (Body.concat, ts)).outcome := by
    intro key hkey
    refine parted_of_views (by simp) (anonymous_readViews hread path key ?_)
    cases hvalue : fields.get? key with
    | none => simp [Json.items?]
    | some v => rwa [hvalue] at hkey
  have hunit : Delivers Parted (readUnit path fields).outcome := by
    unfold readUnit
    split
    · refine fair_bind (fair_readMark path _) fun mark => ?_
      refine fair_bind (Encoding.proper_read _).fair fun encoding => Parted.mk (fun _ h => (nomatch h)) ?_
      exact fun t ht => absurd ht not_mem_nil
    · rfl
  revert hviews
  unfold readBody viewsIn Dict.has
  simp only [Json.field?_obj]
  generalize concatKeys.find? _ = concat
  generalize fields.get? "layer" = layer
  generalize fields.get? "repeat" = layout
  generalize fields.get? "facet" = facet
  generalize fields.get? "spec" = spec
  cases layer with
  | some v =>
    exact fun hviews => parted_of_views (by simp) (anonymous_readViews hread path "layer" hviews)
  | none =>
    cases spec with
    | none =>
      cases layout <;> cases facet <;> cases concat with
      | none => exact fun _ => hunit
      | some key => exact hconcat key
    | some spec =>
      cases layout with
      | some layout =>
        intro hviews
        have hspec := hviews spec mem_cons_self
        exact parted_of_views (by simp) (anonymous_readCopies hread path layout hspec)
      | none =>
        cases facet with
        | some facet =>
          intro hviews
          have hspec := hviews spec mem_cons_self
          refine fair_bind (FacetMapping.proper_read facet).fair fun mapping => ?_
          refine delivers_bind (hread _ _ hspec.nameless) fun t ht => Parted.mk (fun _ _ => ?_) ?_
          · exact Nat.le_refl 1
          · exact forall_mem_singleton.mpr ht
        | none =>
          cases concat with
          | none => exact fun _ => hunit
          | some key => exact hconcat key

end Children

theorem name_readView (path : String) (fields : Dict Json) (body : Body) :
    Delivers (fun s => s.name = (Json.obj fields).textField? "name" ∧ s.body = body)
      (readView path fields body) := by
  refine (fair_readTransforms path _).bind fun transforms => ?_
  refine (fair_readParams _).bind fun params => ?_
  exact (DataSetting.fair_read _).bind fun data => ⟨rfl, rfl⟩

theorem anonymous_readDeep (fuel : Nat) (path : String) {v : Json} (hv : Nameless v) :
    Delivers Anonymous (readDeep fuel path v).outcome := by
  induction fuel generalizing path v with
  | zero => rfl
  | succ fuel ih =>
    cases v with
    | obj fields =>
      refine delivers_bind (parted_readBody (fun path v => ih path) path hv.views) fun parts hparts => ?_
      refine delivers_bind (name_readView path fields parts.1) fun s hs => ?_
      refine .node (fun name hname => hv.name name (hs.1 ▸ hname)) (fun mapping hbody => ?_) hparts.views
      exact hparts.one mapping (hs.2 ▸ hbody)
    | _ => rfl

theorem anonymous_read {v : Json} (hv : Unnamed v) : Delivers Anonymous (read v).outcome :=
  anonymous_readDeep _ _ hv.nameless

end ChartPlan.Chart
