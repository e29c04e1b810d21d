import ChartPlan.Proofs.View.Domains

/-!
# What the domains of scales read

The domain of a scale that the user did not write refers to datasets by name. A unit view makes such
domains from its own main output. When views share a scale, the domain of the shared scale unites those
of the scales that are given up, so it refers to main outputs of unit views below and to nothing else.

* `Json.dataNames`: the names of datasets in a value.
* `Json.dataNames_resolveData`: the names after the final ones were put in.
* `Scale.Reads`: what an inferred domain refers to; `Scale.reads_mergeAll`: merged scales.
* `View.Reading`: every scale reads main outputs of unit views in its tree; `Compilation.reading_views`:
  so do the scales of all views.
-/

namespace ChartPlan

open Checked List Dict Json

theorem Dict.ne_of_get?_eq_none {α : Type} {d : Dict α} {key : String} {entry : String × α}
    (h : d.get? key = none) (he : entry ∈ d) : entry.1 ≠ key := by
  induction d with
  | nil => exact absurd he not_mem_nil
  | cons first rest ih =>
    unfold get? at h
    split at h
    · cases h
    · rename_i hne
      rcases mem_cons.mp he with rfl | he
      · exact Ne.symm hne
      · exact ih h he

/-! ### Names of datasets in values -/

namespace Json

mutual

/-- The names of datasets in a value: the texts under `data` in it and in all values inside it. -/
def dataNames : Json → List String
  | .arr items => dataNamesItems items
  | .obj fields => dataNamesFields fields
  | _ => []

def dataNamesItems : List Json → List String
  | [] => []
  | v :: rest => dataNames v ++ dataNamesItems rest

def dataNamesFields : List (String × Json) → List String
  | [] => []
  | (key, v) :: rest =>
    (if key = "data" then v.text?.toList else []) ++ dataNames v ++ dataNamesFields rest

end

variable {name key : String} {v w : Json}

theorem mem_dataNamesItems {items : List Json} :
    name ∈ dataNamesItems items ↔ ∃ v ∈ items, name ∈ v.dataNames := by
  induction items with
  | nil => simp [dataNamesItems]
  | cons v rest ih => simp [dataNamesItems, ih]

theorem mem_dataNamesFields {fields : List (String × Json)} : name ∈ dataNamesFields fields ↔
    ∃ e ∈ fields, e.1 = "data" ∧ e.2.text? = some name ∨ name ∈ e.2.dataNames := by
  induction fields with
  | nil => simp [dataNamesFields]
  | cons e rest ih =>
    obtain ⟨key, v⟩ := e
    by_cases hkey : key = "data" <;> simp [dataNamesFields, ih, hkey, or_assoc]

theorem dataNames_of_object {fields : List (String × Json)} (h : name ∈ (Json.object fields).dataNames) :
    ∃ e ∈ fields, e.1 = "data" ∧ e.2.text? = some name ∨ name ∈ e.2.dataNames := by
  obtain ⟨e, he, hname⟩ := mem_dataNamesFields.mp h
  exact ⟨e, (mem_of_mem_extend he).resolve_right not_mem_nil, hname⟩

theorem dataNames_of_field? (h : v.field? key = some w) (hname : name ∈ w.dataNames) :
    name ∈ v.dataNames := by
  cases v with
  | obj fields => exact mem_dataNamesFields.mpr ⟨_, mem_of_get? h, .inr hname⟩
  | _ => cases h

theorem dataNames_of_withField? {value : Option Json} (hkey : key ≠ "data")
    (h : name ∈ (v.withField? key value).dataNames) :
    name ∈ v.dataNames ∨ ∃ w, value = some w ∧ name ∈ w.dataNames := by
  cases value with
  | none => exact .inl h
  | some w =>
    cases v with
    | obj fields =>
      obtain ⟨e, he, hname⟩ := mem_dataNamesFields.mp h
      rcases mem_of_mem_insert he with rfl | he
      · exact .inr ⟨w, rfl, hname.resolve_left fun hdata => hkey hdata.1⟩
      · exact .inl (mem_dataNamesFields.mpr ⟨e, he, hname⟩)
    | _ => exact .inl h

end Json

namespace Reference

open Json

variable (renames : Renames) (dataset? : String → Option String)

mutual

theorem dataNames_resolveSignals : (v : Json) → dataNames (resolveSignals renames v) = dataNames v
  | .arr items => dataNamesItems_resolveSignals items
  | .obj fields => dataNamesFields_resolveSignals fields
  | .null | .bool _ | .num _ | .str _ => rfl

theorem dataNamesItems_resolveSignals : (items : List Json) →
    dataNamesItems (resolveSignalItems renames items) = dataNamesItems items
  | [] => rfl
  | v :: rest => congrArg₂ (· ++ ·) (dataNames_resolveSignals v) (dataNamesItems_resolveSignals rest)

theorem dataNamesFields_resolveSignals : (fields : List (String × Json)) →
    dataNamesFields (resolveSignalFields renames fields) = dataNamesFields fields
  | [] => rfl
  | (key, v) :: rest => by
    have hv := dataNames_resolveSignals v
    have ih := dataNamesFields_resolveSignals rest
    cases v with
    | str s =>
      by_cases hkey : key = "data" <;>
        simp [resolveSignalFields, dataNamesFields, dataNames, text?, hkey, ih]
    | _ => exact congrArg₂ (_ ++ · ++ ·) hv ih

end

mutual

theorem dataNames_resolveData : (v : Json) → dataNames (resolveData dataset? v) =
    (dataNames v).map fun name => (dataset? name).getD name
  | .arr items => dataNamesItems_resolveData items
  | .obj fields => dataNamesFields_resolveData fields
  | .null | .bool _ | .num _ | .str _ => rfl

theorem dataNamesItems_resolveData : (items : List Json) →
    dataNamesItems (resolveDataItems dataset? items) =
      (dataNamesItems items).map fun name => (dataset? name).getD name
  | [] => rfl
  | v :: rest => (congrArg₂ (· ++ ·) (dataNames_resolveData v)
      (dataNamesItems_resolveData rest)).trans map_append.symm

theorem dataNamesFields_resolveData : (fields : List (String × Json)) →
    dataNamesFields (resolveDataFields dataset? fields) =
      (dataNamesFields fields).map fun name => (dataset? name).getD name
  | [] => rfl
  | (key, v) :: rest => by
    have hv := dataNames_resolveData v
    have ih := dataNamesFields_resolveData rest
    cases v with
    | str s =>
      by_cases hkey : key = "data" <;>
        simp [resolveDataFields, dataNamesFields, dataNames, text?, hkey, ih]
    | null | bool | num | arr | obj =>
      simp only [resolveDataFields, dataNamesFields, hv, ih, map_append]
      split <;> rfl

end

theorem get?_replaced {replaceFields : List (String × Json) → List (String × Json)}
    {replace : Json → Json} {special key : String} (hnil : replaceFields [] = [])
    (hcons : ∀ k v rest, ∃ w, replaceFields ((k, v) :: rest) = (k, w) :: replaceFields rest ∧
      (k ≠ special → w = replace v)) (hkey : key ≠ special) (fields : List (String × Json)) :
    Dict.get? (replaceFields fields) key = (Dict.get? fields key).map replace := by
  induction fields with
  | nil => rw [hnil]; rfl
  | cons e rest ih =>
    obtain ⟨k, v⟩ := e
    obtain ⟨w, hw, hsame⟩ := hcons k v rest
    rw [hw]
    unfold Dict.get?
    by_cases hk : key = k
    · rw [if_pos hk, if_pos hk, hsame (hk ▸ hkey)]
      rfl
    · rw [if_neg hk, if_neg hk, ih]

theorem get?_resolveSignalFields {key : String} (hkey : key ≠ "signal") (fields : List (String × Json)) :
    Dict.get? (resolveSignalFields renames fields) key =
      (Dict.get? fields key).map (resolveSignals renames) := by
  refine get?_replaced rfl (fun k v rest => ?_) hkey fields
  cases v with
  | str s => exact ⟨_, rfl, fun h => by rw [if_neg h]; rfl⟩
  | _ => exact ⟨_, rfl, fun _ => rfl⟩

theorem get?_resolveDataFields {key : String} (hkey : key ≠ "data") (fields : List (String × Json)) :
    Dict.get? (resolveDataFields dataset? fields) key =
      (Dict.get? fields key).map (resolveData dataset?) := by
  refine get?_replaced rfl (fun k v rest => ?_) hkey fields
  cases v with
  | str s => exact ⟨_, rfl, fun h => by rw [if_neg h]; rfl⟩
  | _ => exact ⟨_, rfl, fun _ => rfl⟩

end Reference

/-! ### What scales read -/

def Setting.Reads (sources : List String) (setting : Setting Json) : Prop :=
  setting.explicit = false → ∀ name ∈ setting.value.dataNames, name ∈ sources

def Scale.Reads (sources : List String) (s : Scale) : Prop :=
  ∀ domain, ("domain", domain) ∈ s.props.implicit → ∀ name ∈ domain.dataNames, name ∈ sources

variable {sources : List String}

theorem mem_addNew {seen items : List Json} {v : Json} (h : v ∈ addNew seen items) :
    v ∈ seen ∨ v ∈ items := by
  refine foldlRecOn (motive := fun acc => v ∈ acc → v ∈ seen ∨ v ∈ items) items _ .inl
    (fun acc hacc item hitem hv => ?_) h
  split at hv
  · exact hacc hv
  · rcases mem_append.mp hv with hv | hv
    · exact hacc hv
    · exact .inr (mem_singleton.mp hv ▸ hitem)

theorem dataNames_of_mem_domainRefs {domain ref : Json} {name : String} (h : ref ∈ domainRefs domain)
    (hname : name ∈ ref.dataNames) : name ∈ domain.dataNames := by
  unfold domainRefs at h
  split at h
  · rename_i items hitems
    obtain ⟨fields, hfields, hitems⟩ := Option.bind_eq_some_iff.mp hitems
    cases fields with
    | arr all =>
      cases hitems
      exact dataNames_of_field? hfields (mem_dataNamesItems.mpr ⟨ref, h, hname⟩)
    | _ => cases hitems
  · exact mem_singleton.mp h ▸ hname

theorem dataNames_fields {refs : List Json} {name : String}
    (h : name ∈ (Json.object [("fields", .arr refs)]).dataNames) :
    ∃ ref ∈ refs, name ∈ ref.dataNames := by
  obtain ⟨e, he, hname⟩ := dataNames_of_object h
  cases mem_singleton.mp he
  exact mem_dataNamesItems.mp (hname.resolve_left fun hdata => absurd hdata.1 (by simp))

theorem dataNames_unionDomain {a b : Json} {name : String} (h : name ∈ (unionDomain a b).dataNames) :
    name ∈ a.dataNames ∨ name ∈ b.dataNames := by
  have hrefs : ∀ ref ∈ addNew [] (domainRefs a ++ domainRefs b), name ∈ ref.dataNames →
      name ∈ a.dataNames ∨ name ∈ b.dataNames := by
    intro ref href hname
    rcases mem_addNew href with href | href
    · exact absurd href not_mem_nil
    · exact (mem_append.mp href).imp (dataNames_of_mem_domainRefs · hname)
        (dataNames_of_mem_domainRefs · hname)
  unfold unionDomain at h
  split at h
  · obtain ⟨v, hv, hname⟩ := mem_dataNamesItems.mp h
    exact (mem_addNew hv).imp (fun hv => mem_dataNamesItems.mpr ⟨v, hv, hname⟩)
      (fun hv => mem_dataNamesItems.mpr ⟨v, hv, hname⟩)
  · split at h
    · rename_i only honly
      exact hrefs only (by simp [honly]) h
    · rcases dataNames_of_withField? (by decide) h with h | ⟨sort, hsort, h⟩
      · obtain ⟨ref, href, hname⟩ := dataNames_fields h
        exact hrefs ref href hname
      · rcases Option.or_eq_some_iff.mp hsort with hsort | ⟨-, hsort⟩
        · exact .inl (dataNames_of_field? hsort h)
        · exact .inr (dataNames_of_field? hsort h)

theorem Setting.Reads.merge {a b : Option (Setting Json)} (ha : ∀ s ∈ a, s.Reads sources)
    (hb : ∀ s ∈ b, s.Reads sources) :
    ∀ s ∈ Setting.merge (Scale.tieBreaker "domain") a b, s.Reads sources := by
  cases a with
  | none => exact hb
  | some a =>
    cases b with
    | none => exact ha
    | some b =>
      have ha := ha a rfl
      have hb := hb b rfl
      intro s hs
      simp only [Setting.merge, Scale.tieBreaker, uniteDomains] at hs
      split at hs
      · cases hs
        exact ha
      split at hs
      · cases hs
        exact hb
      split at hs
      · cases hs
        exact ha
      cases hs
      intro hexplicit name hname
      obtain ⟨hea, heb⟩ := Bool.or_eq_false_iff.mp hexplicit
      exact (dataNames_unionDomain hname).elim (ha hea name) (hb heb name)

namespace Scale

theorem Reads.setting? {s : Scale} (h : s.Reads sources) :
    ∀ setting ∈ s.props.setting? "domain", setting.Reads sources := by
  intro setting hsetting
  unfold Split.setting? at hsetting
  split at hsetting
  · cases hsetting
    exact fun he => absurd he (by simp)
  · obtain ⟨domain, hdomain, rfl⟩ := Option.map_eq_some_iff.mp hsetting
    exact fun _ => h domain (mem_of_get? hdomain)

section

variable {scales : List Scale} (h : ∀ s ∈ scales, s.Reads sources)

include h

theorem reads_mergeProperty {acc : Option (Setting Json)} (hacc : ∀ setting ∈ acc, setting.Reads sources) :
    ∀ setting ∈ (mergeProperty "domain" scales acc).value, setting.Reads sources := by
  induction scales generalizing acc with
  | nil => exact hacc
  | cons s rest ih =>
    refine ih (fun t ht => h t (mem_cons_of_mem s ht)) ?_
    rw [Setting.value_mergeNoted]
    exact Setting.Reads.merge hacc (h s mem_cons_self).setting?

theorem reads_mergeProperties :
    (properties : List String) → (acc : Split Json) →
    (∀ domain, ("domain", domain) ∈ acc.implicit → ∀ name ∈ domain.dataNames, name ∈ sources) →
    ∀ domain, ("domain", domain) ∈ (mergeProperties scales properties acc).value.implicit →
      ∀ name ∈ domain.dataNames, name ∈ sources
  | [], _, hacc => hacc
  | property :: rest, acc, hacc => by
    have hmerged : ∀ setting ∈ (mergeProperty "domain" scales none).value, setting.Reads sources :=
      reads_mergeProperty h (by simp)
    unfold mergeProperties
    simp only [Logged.value_bind]
    split
    · rename_i setting hsetting
      refine reads_mergeProperties rest _ fun domain hdomain name hname => ?_
      unfold Split.put Split.set at hdomain
      split at hdomain
      · exact hacc domain (mem_filter.mp hdomain).1 name hname
      · rename_i hexplicit
        rcases mem_of_mem_insert hdomain with he | hdomain
        · cases he
          exact hmerged setting hsetting (Bool.eq_false_iff.mpr hexplicit) name hname
        · exact hacc domain hdomain name hname
    · exact reads_mergeProperties rest acc hacc

theorem reads_mergeAll (name channel : String) :
    Reads sources { name, channel, props := (mergeAll scales).value } :=
  reads_mergeProperties h _ {} fun _ hdomain => absurd hdomain not_mem_nil

end

/-! ### Scales of unit views -/

section

variable {props : Split Json} {key : String} {value : Json} {e : String × Json}

theorem mem_implicit_infer (h : e ∈ (props.infer key value).implicit) (hne : e.1 ≠ key) :
    e ∈ props.implicit := by
  unfold Split.infer at h
  split at h
  · exact h
  · exact (mem_of_mem_insert h).resolve_left fun he => hne (congrArg Prod.fst he)

theorem mem_implicit_inferWhen {condition : Bool}
    (h : e ∈ (inferWhen condition key value props).implicit) (hne : e.1 ≠ key) : e ∈ props.implicit := by
  unfold inferWhen at h
  split at h
  · exact mem_implicit_infer h hne
  · exact h

theorem mem_implicit_inferSome {value : Option Json} (h : e ∈ (inferSome key value props).implicit)
    (hne : e.1 ≠ key) : e ∈ props.implicit := by
  unfold inferSome at h
  split at h
  · exact mem_implicit_infer h hne
  · exact h

end

theorem dataNames_signal (expr : String) : (signal expr).dataNames = [] := rfl

theorem dataNames_dataRef {data field name : String} (h : name ∈ (dataRef data field).dataNames) :
    name = data := by
  obtain ⟨e, he, hname⟩ := dataNames_of_object h
  simp only [mem_cons, not_mem_nil, or_false] at he
  rcases he with rfl | rfl
  · simpa [Json.text?, Json.dataNames, eq_comm] using hname
  · simp [Json.dataNames] at hname

theorem not_mem_dataNames_domainSort? {d : ChannelDef} {sort : Json} {name : String}
    (h : domainSort? d = some sort) : name ∉ sort.dataNames := by
  unfold domainSort? at h
  split at h <;> cases h
  · intro hname
    obtain ⟨e, he, hname⟩ := dataNames_of_object hname
    simp only [mem_cons, not_mem_nil, or_false] at he
    rcases he with rfl | rfl <;> simp [Json.dataNames] at hname
  all_goals exact not_mem_nil

theorem dataNames_defaultDomain {v : View} {e : Encoding} {channel type name : String} {d : ChannelDef}
    (h : name ∈ (defaultDomain v e channel d type).dataNames) : name = v.inner "main" := by
  unfold defaultDomain at h
  split at h
  · rw [dataNames_signal] at h
    exact absurd h not_mem_nil
  split at h
  · rcases dataNames_of_withField? (by decide) h with h | ⟨sort, hsort, h⟩
    · exact dataNames_dataRef h
    · exact absurd h (not_mem_dataNames_domainSort? hsort)
  · rcases dataDomain_cases v e channel d with ⟨field, -, hdomain⟩ | hdomain
    · exact dataNames_dataRef (hdomain ▸ h)
    · rw [hdomain] at h
      obtain ⟨ref, href, hname⟩ := dataNames_fields h
      obtain ⟨field, -, rfl⟩ := mem_map.mp href
      exact dataNames_dataRef hname

theorem not_mem_implicit_typed (channel mark : String) (d : ChannelDef) (domain : Json) :
    ("domain", domain) ∉ (typed channel d mark (written d)).1.implicit := by
  unfold typed
  split
  · simp [implicit_written]
  · intro h
    rcases mem_of_mem_insert h with he | h
    · simp at he
    · simp [implicit_written] at h

theorem reads_ofDef (config : Config) (v : View) (mark : Mark) (e : Encoding) (d : ChannelDef) :
    (ofDef config v mark e d).Reads [v.inner "main"] := by
  intro domain hdomain name hname
  have hnot := not_mem_implicit_typed d.channel mark.type d domain
  unfold ofDef at hdomain
  dsimp only at hdomain
  replace hdomain := mem_implicit_inferWhen (mem_implicit_inferWhen (mem_implicit_inferSome
    (mem_implicit_inferWhen (mem_implicit_inferWhen hdomain (by simp)) (by simp)) (by simp))
      (by simp)) (by simp)
  have hinferred : ("domain", domain) ∈ ((typed d.channel d mark.type (written d)).1.infer "domain"
      (defaultDomain v e d.channel d (typed d.channel d mark.type (written d)).2)).implicit := by
    split at hdomain
    · exact hdomain
    · exact mem_implicit_inferSome hdomain (by simp)
  unfold Split.infer at hinferred
  split at hinferred
  · exact absurd hinferred hnot
  · rcases mem_of_mem_insert hinferred with he | hmem
    · cases he
      exact mem_singleton.mpr (dataNames_defaultDomain hname)
    · exact absurd hmem hnot

theorem reads_ofUnit (config : Config) (v : View) (mark : Mark) (e : Encoding) :
    ∀ entry ∈ ofUnit config v mark e, entry.2.Reads [v.inner "main"] := by
  intro entry hentry
  obtain ⟨-, -, d, -, rfl⟩ := of_mem_ofUnit hentry
  exact reads_ofDef config v mark e d

end Scale

/-! ### Scales of composed views -/

namespace View

def mainIn : Body → String → Option String
  | .unit _ _, name => some (nameIn name "main")
  | _, _ => none

def mains (views : List View) : List String :=
  views.filterMap fun v => mainIn v.body v.name

def ScalesRead (sources : List String) (v : View) : Prop :=
  ∀ entry ∈ v.scales, entry.2.Reads sources

mutual

/-- Every scale in a tree of views refers to main outputs of unit views below it. -/
def Reading : Tree View → Prop
  | .node v children => v.ScalesRead (mains (v :: Tree.preorders children)) ∧ ReadingAll children

/-- Every scale in several trees refers to main outputs of unit views below it. -/
def ReadingAll : List (Tree View) → Prop
  | [] => True
  | t :: rest => Reading t ∧ ReadingAll rest

end

variable {config : Config} {v w : View} {sources more : List String}

theorem readingAll_iff {ts : List (Tree View)} : ReadingAll ts ↔ ∀ t ∈ ts, Reading t := by
  induction ts with
  | nil => simp [ReadingAll]
  | cons t rest ih => rw [ReadingAll, ih, forall_mem_cons]

/-- What the inferred domain of a scale at the root of a tree refers to is the main output of a unit view
in the tree. -/
theorem Reading.exists_unit {t : Tree View} (h : Reading t) {s : Scale} {domain : Json} {name : String}
    (hs : s ∈ t.value.scales.values) (hdomain : ("domain", domain) ∈ s.props.implicit)
    (hname : name ∈ domain.dataNames) :
    ∃ u ∈ t.preorder, u.unit?.isSome ∧ name = u.inner "main" := by
  obtain ⟨v, children⟩ := t
  obtain ⟨entry, hentry, rfl⟩ := mem_map.mp hs
  obtain ⟨u, hu, hmain⟩ := mem_filterMap.mp (h.1 entry hentry domain hdomain name hname)
  refine ⟨u, hu, ?_⟩
  unfold mainIn at hmain
  split at hmain
  · rename_i mark e hbody
    cases hmain
    exact ⟨by rw [unit?, hbody]; rfl, rfl⟩
  · cases hmain

theorem mainIn_of_unit? {mark : Mark} {e : Encoding} (h : v.unit? = some (mark, e)) :
    mainIn v.body v.name = some (v.inner "main") := by
  rw [body_of_unit? h]
  rfl

def label (v : View) : Body × String :=
  (v.body, v.name)

theorem mains_of_label {views others : List View} (h : others.map label = views.map label) :
    mains others = mains views := by
  have hmains : ∀ views : List View,
      mains views = (views.map label).filterMap fun p => mainIn p.1 p.2 := fun views => by
    rw [filterMap_map]
    rfl
  rw [hmains, hmains, h]

theorem ScalesRead.mono (h : v.ScalesRead sources) (hsub : sources ⊆ more) : v.ScalesRead more :=
  fun entry hentry domain hdomain name hname => hsub (h entry hentry domain hdomain name hname)

theorem ScalesRead.giveUpScale (h : v.ScalesRead sources) (channel : String) :
    (giveUpScale channel v).ScalesRead sources := by
  unfold View.giveUpScale
  split
  · rename_i s hs
    have hreads : s.Reads sources := h (channel, s) (mem_of_get? hs)
    intro entry hentry
    rcases mem_of_mem_insert hentry with rfl | hentry
    · exact hreads
    · exact h entry hentry
  · exact h

theorem ReadingAll.giveUpScale {ts : List (Tree View)} (h : ReadingAll ts) (channel : String) :
    ReadingAll (mapChildren (View.giveUpScale channel) ts) := by
  refine readingAll_iff.mpr fun t hmem => ?_
  obtain ⟨⟨v, children⟩, ht, rfl⟩ := mem_map.mp hmem
  obtain ⟨hv, hbelow⟩ := readingAll_iff.mp h _ ht
  have hsame : mains (View.giveUpScale channel v :: Tree.preorders children) =
      mains (v :: Tree.preorders children) :=
    mains_of_label (congrArg (· :: _) (see_giveUpScale (fun _ _ _ => rfl) channel v))
  exact ⟨(hv.giveUpScale channel).mono fun _ hname => hsame.symm ▸ hname, hbelow⟩

theorem ReadingAll.roots {ts : List (Tree View)} (h : ReadingAll ts) :
    ∀ t ∈ ts, t.value.ScalesRead (mains (Tree.preorders ts)) := by
  rintro ⟨v, children⟩ ht
  exact (readingAll_iff.mp h _ ht).1.mono fun name hname =>
    have ⟨u, hu, hmain⟩ := mem_filterMap.mp hname
    mem_filterMap.mpr ⟨u, Tree.mem_preorders.mpr ⟨_, ht, hu⟩, hmain⟩

/-- What is kept while a view takes over the scales of the views below. -/
structure Merging.Reads (sources : List String) (m : Merging) : Prop where
  view : m.view.ScalesRead sources
  roots : ∀ t ∈ m.children, t.value.ScalesRead sources
  below : ReadingAll m.children

theorem Merging.Reads.shareScale {m : Merging} (h : m.Reads sources) (channel : String) :
    (View.shareScale m channel).value.Reads sources := by
  unfold View.shareScale
  dsimp only
  split
  · exact h
  split
  · refine ⟨fun entry hentry => ?_, fun t ht => ?_, h.below.giveUpScale channel⟩
    · rcases mem_of_mem_insert hentry with rfl | hentry
      · refine Scale.reads_mergeAll (fun s hs => ?_) _ _
        obtain ⟨t, ht, hs⟩ := mem_filterMap.mp hs
        exact h.roots t ht _ (mem_of_get? hs)
      · exact h.view entry hentry
    · obtain ⟨t', ht', rfl⟩ := mem_map.mp ht
      exact (h.roots t' ht').giveUpScale channel
  · exact ⟨h.view, h.roots, h.below⟩

theorem reading_composeScales {children : List (Tree View)} (renames : Renames) (hscales : v.scales = [])
    (h : ReadingAll children) :
    Reading (composeScales v children renames).value.1 := by
  unfold composeScales
  generalize Channel.scaled = channels
  have hreads : Merging.Reads (mains (Tree.preorders children)) ⟨v, children, renames⟩ :=
    ⟨fun entry hentry => by simp [hscales] at hentry, h.roots, h⟩
  obtain ⟨hview, -, hbelow⟩ := shareScales_induction (fun _ channel h => h.shareScale channel) channels hreads
  obtain ⟨-, hchildren⟩ :=
    (@see_shareScales _ label (fun _ _ _ => rfl) channels ⟨v, children, renames⟩).value
  have hlabels := congrArg Tree.preorders hchildren
  rw [Tree.preorders_map, Tree.preorders_map] at hlabels
  refine ⟨hview.mono fun name hname => ?_, hbelow⟩
  rw [← mains_of_label hlabels] at hname
  obtain ⟨u, hu, hname⟩ := mem_filterMap.mp hname
  exact mem_filterMap.mpr ⟨u, mem_cons_of_mem _ hu, hname⟩

mutual

theorem reading_addScales (config : Config) : (t : Tree View) → (renames : Renames) →
    Body.Regular (t.map View.body) → (∀ v ∈ t.preorder, v.scales = []) →
    Reading (addScales config renames t).value.1
  | .node v children, renames, hregular, hscales => by
    unfold addScales
    split
    · rename_i mark e hunit
      cases children with
      | cons t rest => exact (nomatch (hregular.1 _ _ (body_of_unit? hunit)).2)
      | nil =>
        refine ⟨fun entry hentry domain hdomain name hname => ?_, True.intro⟩
        have hread := Scale.reads_ofUnit config v mark e entry hentry domain hdomain name hname
        rw [mem_singleton.mp hread]
        exact mem_filterMap.mpr ⟨_, mem_cons_self, mainIn_of_unit? hunit⟩
    · exact reading_composeScales _ (hscales v mem_cons_self)
        (readingAll_addScalesAll config children renames hregular.2 fun w hw =>
          hscales w (mem_cons_of_mem v hw))

theorem readingAll_addScalesAll (config : Config) : (ts : List (Tree View)) → (renames : Renames) →
    Body.RegularAll (Tree.mapAll View.body ts) → (∀ v ∈ Tree.preorders ts, v.scales = []) →
    ReadingAll (addScalesAll config renames ts).value.1
  | [], _, _, _ => True.intro
  | t :: rest, renames, hregular, hscales => by
    unfold addScalesAll
    exact ⟨reading_addScales config t renames hregular.1 fun v hv =>
      hscales v (mem_append_left _ hv), readingAll_addScalesAll config rest _ hregular.2 fun v hv =>
      hscales v (mem_append_right _ hv)⟩

end

theorem scales_build (chart : Chart) :
    Delivers (fun t : Tree View => ∀ v ∈ t.preorder, v.scales = []) (build chart).outcome := by
  refine (ofSpec_build chart).mono fun t ht v hv => ?_
  obtain ⟨s, name, stack, rfl⟩ := ht v hv
  rfl

/-- What a scale refers to depends on the labels and the scales of the views. -/
def readings (v : View) : (Body × String) × Dict Scale :=
  (v.label, v.scales)

theorem map_label_of_readings {views others : List View} (h : others.map readings = views.map readings) :
    others.map label = views.map label := by
  have hlabel := congrArg (List.map Prod.fst) h
  rwa [map_map, map_map] at hlabel

theorem Reading.of_map (t u : Tree View) (hmap : u.map readings = t.map readings) (h : Reading t) :
    Reading u := by
  induction t generalizing u with
  | node v ts ih =>
    obtain ⟨w, us⟩ := u
    have hviews := congrArg Tree.preorder hmap
    rw [Tree.preorder_map, Tree.preorder_map] at hviews
    have hmains : mains (w :: Tree.preorders us) = mains (v :: Tree.preorders ts) :=
      mains_of_label (map_label_of_readings hviews)
    obtain ⟨hroot, hbelow⟩ := Tree.node.inj hmap
    have hscales : w.scales = v.scales := congrArg Prod.snd hroot
    refine ⟨?_, readingAll_iff.mpr fun u hu => ?_⟩
    · rw [hmains]
      unfold ScalesRead
      rw [hscales]
      exact h.1
    · obtain ⟨t, ht, hsame⟩ := Tree.exists_of_mapAll hbelow hu
      exact ih t ht u hsame (readingAll_iff.mp h.2 t ht)

end View

namespace Compilation

variable {given : Config} {spec : Json} (c : Compilation given spec)

theorem reading_views : View.Reading c.views := by
  have hscales : ∀ v ∈ (View.withSelections c.named).preorder, v.scales = [] := by
    intro v hv
    have hmap : (View.withSelections c.named).map View.scales = c.named.map View.scales :=
      View.map_withSelections (fun _ _ => rfl) c.named
    obtain ⟨w, hw, hsame⟩ := Tree.exists_of_map hmap hv
    rw [← hsame]
    exact (View.scales_build c.chart).of_eq_ok c.named_eq w hw
  refine View.Reading.of_map c.scaled.1 c.views ?_ (View.reading_addScales c.config _ _ c.regular_selected hscales)
  exact (c.map_views fun _ _ _ => rfl).trans ((View.map_withData (fun _ _ => rfl) c.grown_eq).trans
    (View.map_withProjections (fun _ _ => rfl) _).value)

end Compilation

end ChartPlan
