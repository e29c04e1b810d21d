import ChartPlan.Proofs.Stages
import ChartPlan.Proofs.View.Fields

/-!
# Fields of scale domains

A scale without a written domain takes its domain from fields at the main output of its view. The name
of such a field and the nodes that write it are made apart from each other. They agree when transforms
leave the fields that the encoding names and the bins of a layer, which are made before its transforms,
and when no time unit is asked of binned data. The places in a custom order are written before rows are
aggregated, and no aggregate of an encoding groups by them.

* `Route.serves`: whether a definition finds its field before rows are aggregated.
* `Route.atMain_outputName`: then the field is there at the main output.
* `compile_domains_found`: the fields of all domains that are not written by the user.
* `compile_sortedSums`: an aggregate drops the places in a custom order by which a domain is sorted.
-/

namespace ChartPlan

open Flow List Option Dict

theorem foldl_brings {α β : Type} {add : β → α → β} {P : β → Prop} {items : List α} {x : α}
    (hkeep : ∀ b y, P b → P (add b y)) (hx : x ∈ items) (hnew : ∀ b, P (add b x)) (b : β) :
    P (items.foldl add b) := by
  induction items generalizing b with
  | nil => exact absurd hx not_mem_nil
  | cons y rest ih =>
    rcases mem_cons.mp hx with rfl | hx
    · exact foldlRecOn rest add (hnew b) fun b hb y _ => hkeep b y hb
    · exact ih hx (add b y)

theorem Dict.mem_of_mem_extend {α : Type} {d : Dict α} {entries : List (String × α)}
    {entry : String × α} (h : entry ∈ Dict.extend d entries) : entry ∈ entries ∨ entry ∈ d := by
  refine foldlRecOn (motive := fun acc : Dict α => entry ∈ acc → entry ∈ entries ∨ entry ∈ d)
    entries _ .inr (fun acc hacc other hother hentry => ?_) h
  rcases mem_of_mem_insert hentry with rfl | hentry
  · exact .inl hother
  · exact hacc hentry

/-! ### What encodings prepare -/

namespace Flow

namespace Bins

def Exposes (node : Bins) (pair : String × String) : Prop :=
  ∃ key b, node.bins.get? key = some b ∧ pair ∈ b.outputs

theorem Exposes.mem_produced {node : Bins} {pair : String × String} (h : node.Exposes pair) :
    pair.1 ∈ node.produced := by
  obtain ⟨key, b, hb, hpair⟩ := h
  refine NameSet.mem_ofList.mpr (mem_flatMap.mpr ⟨b, ?_, mem_append_left _ ?_⟩)
  · exact mem_map.mpr ⟨_, mem_of_get? hb, rfl⟩
  · exact mem_flatMap.mpr ⟨pair, hpair, mem_cons_self⟩

theorem exposes_add_self (node : Bins) (b : Binning) : (node.add b).Exposes b.output := by
  unfold add
  split
  · exact ⟨b.key, _, by rw [get?_insert, if_pos rfl],
      Binning.mem_outputs_absorb.mpr (.inr mem_cons_self)⟩
  · exact ⟨b.key, b, by rw [get?_insert, if_pos rfl], mem_cons_self⟩

theorem Exposes.add {node : Bins} {pair : String × String} (h : node.Exposes pair) (b : Binning) :
    (node.add b).Exposes pair := by
  obtain ⟨key, ours, hours, hpair⟩ := h
  unfold Bins.add
  by_cases hkey : key = b.key
  · subst hkey
    rw [hours]
    exact ⟨b.key, _, by rw [get?_insert, if_pos rfl], Binning.mem_outputs_absorb.mpr (.inl hpair)⟩
  · split <;> exact ⟨key, ours, by rw [get?_insert, if_neg hkey, hours], hpair⟩

end Bins

namespace Aggregate

theorem mem_produced_of_names {a : Aggregate} {field op name : String}
    (h : name ∈ a.names field op) : name ∈ a.produced := by
  obtain ⟨group, hgroup, hname⟩ := mem_results_of_names h
  exact NameSet.mem_ofList.mpr (mem_flatMap.mpr ⟨_, hgroup, hname⟩)

theorem mem_names_addMeasure (a : Aggregate) (field : Option String) (op output : String) :
    ∃ name, output ∈ (a.addMeasure field op output).names name op := by
  refine ⟨if op == "count" then anyField else field.getD anyField, ?_⟩
  unfold addMeasure
  rw [names_addNames, if_pos ⟨rfl, rfl⟩]
  exact NameSet.mem_extend.mpr (.inr mem_cons_self)

end Aggregate

end Flow

namespace View

variable {v : View} {e : Encoding} {d : ChannelDef}

theorem mem_written_binNode? (hd : d ∈ v.preparedDefs) {b : Binning}
    (hb : d.binning? v.name = some b) :
    b.output.1 ∈ v.binNode?.toList.flatMap Node.written := by
  have hexposes : Bins.Exposes
      ((v.preparedDefs.filterMap (ChannelDef.binning? v.name)).foldl Bins.add {}) b.output :=
    foldl_brings (P := fun node : Bins => node.Exposes b.output) (fun _ other h => h.add other)
      (mem_filterMap.mpr ⟨d, hd, hb⟩) (fun node => node.exposes_add_self b) {}
  unfold binNode?
  generalize (v.preparedDefs.filterMap (ChannelDef.binning? v.name)).foldl Bins.add {} = node
    at hexposes
  have hsome : node.bins.isEmpty = false := by
    obtain ⟨key, ours, hours, -⟩ := hexposes
    cases hbins : node.bins with
    | nil => rw [hbins] at hours; cases hours
    | cons _ _ => rfl
  simp only [hsome, Bool.false_eq_true, if_false, toList_some, flatMap_singleton]
  exact hexposes.mem_produced

theorem mem_written_timeUnitNode? (hd : d ∈ v.preparedDefs) {cut : TimeCut}
    (hcut : d.timeCut? = some cut) :
    cut.output ∈ v.timeUnitNode?.toList.flatMap Node.written := by
  let add := fun (cuts : Dict TimeCut) (c : TimeCut) => cuts.insertIfNew c.output c
  have hget : ∀ cuts c name, (add cuts c).get? name = if name = c.output ∧ cuts.get? name = none
      then some c else cuts.get? name := by
    intro cuts c name
    show Dict.get? (if _ then _ else _) name = _
    unfold Dict.has
    by_cases hname : name = c.output
    · subst hname
      cases hold : cuts.get? c.output <;> simp [hold, get?_insert]
    · split <;> simp [hname, get?_insert]
  have hcuts : cut ∈ v.preparedDefs.filterMap ChannelDef.timeCut? :=
    mem_filterMap.mpr ⟨d, hd, hcut⟩
  -- Every cut stands under the name of its result.
  have hkeyed : ∀ name c, ((v.preparedDefs.filterMap ChannelDef.timeCut?).foldl add []).get? name =
      some c → c.output = name := by
    refine foldlRecOn (motive := fun cuts : Dict TimeCut => ∀ name c,
      cuts.get? name = some c → c.output = name) _ add (fun _ _ h => (nomatch h)) ?_
    intro cuts hold c _ name other hother
    rw [hget] at hother
    split at hother
    · rename_i hnew
      cases hother
      exact hnew.1.symm
    · exact hold name other hother
  have hfound : (((v.preparedDefs.filterMap ChannelDef.timeCut?).foldl add []).get?
      cut.output).isSome := by
    refine foldl_brings (P := fun cuts : Dict TimeCut => (cuts.get? cut.output).isSome)
      (fun cuts c h => ?_) hcuts (fun cuts => ?_) []
    · rw [hget, if_neg fun hnew => by rw [hnew.2] at h; cases h]
      exact h
    · rw [hget]
      cases hold : cuts.get? cut.output <;> simp
  unfold timeUnitNode?
  generalize (v.preparedDefs.filterMap ChannelDef.timeCut?).foldl add [] = cuts at hkeyed hfound
  obtain ⟨found, hfound⟩ := isSome_iff_exists.mp hfound
  cases cuts with
  | nil => cases hfound
  | cons entry rest =>
    show cut.output ∈ List.flatMap Node.written [.timeUnit ⟨entry :: rest⟩]
    rw [flatMap_singleton]
    refine NameSet.mem_ofList.mpr (mem_flatMap.mpr ⟨found, ?_, ?_⟩)
    · exact mem_map.mpr ⟨_, mem_of_get? hfound, rfl⟩
    · rw [hkeyed _ _ hfound]
      exact mem_cons_self

theorem mem_written_sortNodes (hd : d ∈ v.preparedDefs) {order : List Json}
    (hsort : d.sort = some (.arr order)) (hfield : d.field.isSome) :
    d.sortIndexName ∈ v.sortNodes.flatMap Node.written := by
  obtain ⟨field, hfield⟩ := isSome_iff_exists.mp hfield
  have hformula : ∃ expr, d.sortFormula? = some ⟨expr, d.sortIndexName⟩ := by
    unfold ChannelDef.sortFormula? Formula.sortIndex?
    rw [hsort, hfield]
    exact ⟨_, rfl⟩
  obtain ⟨expr, hformula⟩ := hformula
  refine mem_flatMap.mpr ⟨.formula ⟨expr, d.sortIndexName⟩, ?_, mem_cons_self⟩
  exact mem_map.mpr ⟨_, mem_filterMap.mpr ⟨d, hd, hformula⟩, rfl⟩

theorem mem_aggregate? {a : Aggregate} (ha : v.aggregate? e = some a) (hd : d ∈ e.defs) :
    (∀ op, d.aggregate = some op → d.outputName ∈ a.produced) ∧
      (d.aggregate = none → ∀ field ∈ v.groupFields d, field ∈ a.dimensions) := by
  unfold aggregate? at ha
  split at ha
  · cases ha
    constructor
    · intro op hop
      have hmeasured : ∃ field op, d.outputName ∈ (e.defs.foldl v.addToAggregate {}).names field op := by
        refine foldl_brings (P := fun a : Aggregate => ∃ field op, d.outputName ∈ a.names field op)
          (fun a other ⟨field, op, h⟩ => ?_) hd (fun a => ?_) {}
        · unfold addToAggregate
          split
          · exact ⟨field, op, (Aggregate.addNames_extends a _ _ _).names h⟩
          · exact ⟨field, op, h⟩
        · unfold addToAggregate
          rw [hop]
          obtain ⟨name, hname⟩ := a.mem_names_addMeasure d.field op d.outputName
          exact ⟨name, op, hname⟩
      obtain ⟨field, op, hname⟩ := hmeasured
      exact Aggregate.mem_produced_of_names hname
    · intro hnone field hfield
      refine foldl_brings (P := fun a : Aggregate => field ∈ a.dimensions)
        (fun a other h => ?_) hd (fun a => ?_) {}
      · unfold addToAggregate
        split
        · exact h
        · exact NameSet.mem_extend.mpr (.inl h)
      · unfold addToAggregate
        rw [hnone]
        exact NameSet.mem_extend.mpr (.inr hfield)
  · cases ha

theorem outputName_mem_groupFields (h : projectedPosition? d.channel = none) :
    d.outputName ∈ v.groupFields d := by
  unfold groupFields
  rw [h]
  dsimp only
  split <;> exact mem_cons_self

end View

/-! ### Fields of definitions -/

def Encoding.fieldNames (e : Encoding) : List String :=
  e.defs.map ChannelDef.flatField

namespace Route

variable {c : Route} {mark : Mark} {e : Encoding} {d : ChannelDef}

/-- Whether a definition finds its field before rows are aggregated: transforms leave the field that it
names, or the bins that it reads in a layer, and no time unit is asked of binned data. -/
def serves (c : Route) (e : Encoding) (d : ChannelDef) : Bool :=
  match d.aggregate, d.binParams?, d.timeUnit with
  | some _, _, _ => true
  | none, some _, _ =>
    !c.layered || c.view.transforms.foldl Transform.after (· == d.outputName) d.outputName
  | none, none, some _ => !d.isBinned
  | none, none, none => c.passed.foldl Transform.after e.fieldNames.contains d.flatField

section

variable (hunit : c.view.unit? = some (mark, e))

include hunit

theorem preparedDefs_eq : c.view.preparedDefs = e.defs := by
  unfold View.preparedDefs
  rw [View.body_of_unit? hunit]

theorem atRaw_outputName (hd : d ∈ e.defs) (hfield : d.field.isSome)
    (haggregate : d.aggregate = none) (hserves : c.serves e d) :
    c.AtRaw e.fieldNames d.outputName := by
  have hprepared : d ∈ c.view.preparedDefs := by rwa [preparedDefs_eq hunit]
  obtain ⟨field, hfield⟩ := isSome_iff_exists.mp hfield
  have hflat : d.flatField = Path.flatName field := by
    unfold ChannelDef.flatField
    rw [hfield]
    rfl
  cases hbin : d.binParams? with
  | some params =>
    have hname : d.outputName = Bin.text params ++ "_" ++ Path.flatName field := by
      unfold ChannelDef.outputName
      rw [haggregate, hbin, ← hflat]
    obtain ⟨b, hb, hstart⟩ : ∃ b, d.binning? c.view.name = some b ∧ b.output.1 = d.outputName := by
      unfold ChannelDef.binning?
      rw [hbin, hfield, hname]
      refine ⟨_, rfl, ?_⟩
      split <;> rfl
    refine .inr (.inl ⟨hstart ▸ View.mem_written_binNode? hprepared hb, fun hlayered => ?_⟩)
    unfold serves at hserves
    rw [haggregate, hbin] at hserves
    simpa [hlayered] using hserves
  | none =>
    cases hunit : d.timeUnit with
    | some unit =>
      have hname : d.outputName = unit.fullName ++ "_" ++ Path.flatName field := by
        unfold ChannelDef.outputName
        rw [haggregate, hbin, hunit, ← hflat]
      have hbinned : d.isBinned = false := by
        unfold serves at hserves
        rw [haggregate, hbin, hunit] at hserves
        simpa using hserves
      have hcut : d.timeCut? = some ⟨d.outputName, field, unit⟩ := by
        unfold ChannelDef.timeCut?
        rw [hunit, hfield, hname]
        simp [hbinned]
      exact .inr (.inr (.inl (View.mem_written_timeUnitNode? hprepared hcut)))
    | none =>
      have hname : d.outputName = d.flatField := by
        unfold ChannelDef.outputName
        rw [haggregate, hbin, hunit]
      unfold serves at hserves
      rw [haggregate, hbin, hunit] at hserves
      exact .inl (hname ▸ hserves)

theorem atMain_outputName {channel : String} (hd : d ∈ e.defs) (hstands : d.Stands channel)
    (hchannel : View.projectedPosition? channel = none) (hserves : c.serves e d) :
    c.AtMain e e.fieldNames d.outputName := by
  refine .inl ?_
  have hraw : d.aggregate = none → c.AtRaw e.fieldNames d.outputName := fun haggregate =>
    atRaw_outputName hunit hd (hstands.field haggregate) haggregate hserves
  cases ha : c.view.aggregate? e with
  | some a =>
    obtain ⟨hmeasure, hgroup⟩ := View.mem_aggregate? ha hd
    cases haggregate : d.aggregate with
    | some op => exact .inl (hmeasure op haggregate)
    | none =>
      refine .inr ⟨hraw haggregate, hgroup haggregate _ (View.outputName_mem_groupFields ?_)⟩
      rw [hstands.channel, hchannel]
  | none =>
    refine hraw (eq_none_iff_forall_ne_some.mpr fun op hop => ?_)
    unfold View.aggregate? at ha
    have hany : e.hasAggregate := any_eq_true.mpr ⟨d, hd, by rw [hop]; rfl⟩
    rw [if_pos hany] at ha
    cases ha

theorem atMain_sortIndexName {channel : String} {order : List Json} (hd : d ∈ e.defs)
    (hstands : d.Stands channel) (hsort : d.sort = some (.arr order))
    (haggregate : e.hasAggregate = false) : c.AtMain e e.fieldNames d.sortIndexName := by
  have hnone : c.view.aggregate? e = none := by
    unfold View.aggregate?
    rw [haggregate]
    rfl
  have hplain : d.aggregate = none := by
    have hall := any_eq_false.mp haggregate d hd
    simpa using hall
  have hprepared : d ∈ c.view.preparedDefs := by rwa [preparedDefs_eq hunit]
  refine .inl ?_
  rw [hnone]
  exact .inr (.inr (.inr (View.mem_written_sortNodes hprepared hsort (hstands.field hplain))))

end

theorem atMain_stack {s : Stacking} (hs : c.view.stack = some s) (hd : e.get? s.channel = some d)
    (given : List String) {x : String} (hx : x ∈ [d.outputName ++ "_start", d.outputName ++ "_end"]) :
    c.AtMain e given x := by
  refine .inr ?_
  unfold View.stackNode?
  rw [hs]
  show x ∈ List.flatMap Stack.produced (((e.get? s.channel).bind fun d => _).toList)
  rw [hd]
  show x ∈ List.flatMap Stack.produced [_]
  rw [flatMap_singleton]
  exact NameSet.mem_ofList.mpr hx

end Route

/-! ### Domains -/

namespace Scale

def domainRefs (domain : Json) : List Json :=
  match domain.field? "fields" with
  | some (.arr refs) => refs
  | _ => if (domain.field? "field").isSome then [domain] else []

def sortField? (domain : Json) : Option String :=
  (domain.field? "sort").bind fun sort => sort.textField? "field"

/-- The definitions whose fields a domain may read: those of both ends of a ranged mark. -/
def domainDefs (e : Encoding) (channel : String) : List ChannelDef :=
  (e.get? channel).toList ++ (e.get? (channel ++ "2")).toList

variable {v : View} {e : Encoding} {channel type : String} {d : ChannelDef}

theorem field?_dataRef (data field : String) : (dataRef data field).field? "data" = some (.str data) ∧
    (dataRef data field).field? "field" = some (.str field) ∧
    (dataRef data field).field? "fields" = none ∧ (dataRef data field).field? "sort" = none := by
  simp [dataRef]

theorem field?_sorted (data field : String) (sort : Option Json) {key : String} (h : key ≠ "sort") :
    ((dataRef data field).withField? "sort" sort).field? key = (dataRef data field).field? key := by
  cases sort with
  | none => rfl
  | some sort =>
    show ((dataRef data field).withField "sort" sort).field? key = _
    exact Json.field?_withField_ne sort h

theorem field?_sort_sorted (data field : String) (sort : Option Json) :
    ((dataRef data field).withField? "sort" sort).field? "sort" = sort := by
  cases sort with
  | none => exact (field?_dataRef data field).2.2.2
  | some sort =>
    show Dict.get? (Dict.insert _ "sort" sort) "sort" = _
    rw [get?_insert, if_pos rfl]

theorem domainRefs_sorted (data field : String) (sort : Option Json) :
    domainRefs ((dataRef data field).withField? "sort" sort) =
      [(dataRef data field).withField? "sort" sort] := by
  obtain ⟨-, hfield, hfields, -⟩ := field?_dataRef data field
  unfold domainRefs
  rw [field?_sorted _ _ _ (by decide), hfields, field?_sorted _ _ _ (by decide), hfield]
  rfl

theorem dataDomain_cases (v : View) (e : Encoding) (channel : String) (d : ChannelDef) :
    (∃ field, domainFields v e channel d = [field] ∧
      dataDomain v e channel d = dataRef (v.inner "main") field) ∨
    dataDomain v e channel d =
      .object [("fields", .arr ((domainFields v e channel d).map (dataRef (v.inner "main"))))] := by
  unfold dataDomain
  split
  · rename_i only honly
    obtain ⟨field, hfield, rfl⟩ := map_eq_singleton_iff.mp honly
    exact .inl ⟨field, hfield, rfl⟩
  · exact .inr rfl

theorem field?_fields (refs : List Json) :
    (Json.object [("fields", .arr refs)]).field? "fields" = some (.arr refs) ∧
      (Json.object [("fields", .arr refs)]).field? "sort" = none := by
  simp

theorem domainRefs_dataDomain (v : View) (e : Encoding) (channel : String) (d : ChannelDef) :
    domainRefs (dataDomain v e channel d) =
      (domainFields v e channel d).map (dataRef (v.inner "main")) := by
  rcases dataDomain_cases v e channel d with ⟨field, hfields, hdomain⟩ | hdomain
  · rw [hdomain, hfields]
    exact domainRefs_sorted _ _ none
  · rw [hdomain, domainRefs, (field?_fields _).1]

theorem domainRefs_defaultDomain {ref : Json} (h : ref ∈ domainRefs (defaultDomain v e channel d type)) :
    ∃ field ∈ d.outputName :: domainFields v e channel d,
      ref.textField? "data" = some (v.inner "main") ∧ ref.textField? "field" = some field := by
  have hsorted : ∀ field sort,
      ((dataRef (v.inner "main") field).withField? "sort" sort).textField? "data" =
          some (v.inner "main") ∧
        ((dataRef (v.inner "main") field).withField? "sort" sort).textField? "field" = some field := by
    intro field sort
    obtain ⟨hdata, hfield, -⟩ := field?_dataRef (v.inner "main") field
    unfold Json.textField?
    rw [field?_sorted _ _ _ (by decide), field?_sorted _ _ _ (by decide), hdata, hfield]
    exact ⟨rfl, rfl⟩
  unfold defaultDomain at h
  split at h
  · exact absurd h not_mem_nil
  · split at h
    · rw [domainRefs_sorted, mem_singleton] at h
      exact ⟨d.outputName, mem_cons_self, h ▸ hsorted _ _⟩
    · rw [domainRefs_dataDomain] at h
      obtain ⟨field, hfield, rfl⟩ := mem_map.mp h
      exact ⟨field, mem_cons_of_mem _ hfield, hsorted field none⟩

theorem sortField?_defaultDomain {field : String}
    (h : sortField? (defaultDomain v e channel d type) = some field) :
    field = d.sortIndexName ∧ ∃ order, d.sort = some (.arr order) := by
  unfold sortField? defaultDomain at h
  split at h
  · cases h
  · split at h
    · rw [field?_sort_sorted] at h
      unfold domainSort? at h
      split at h
      · cases h
      · rename_i order hsort
        have hname : (Json.object [("op", .str "min"), ("field", .str d.sortIndexName)]).textField?
            "field" = some d.sortIndexName := by
          simp [Json.textField?, Json.text?]
        exact ⟨Option.some.inj (h.symm.trans hname), order, hsort⟩
      · have hnone : (Json.object [("order", .str "descending")]).textField? "field" = none := by
          simp [Json.textField?]
        cases h.symm.trans hnone
      · cases h
    · rcases dataDomain_cases v e channel d with ⟨field, -, hdomain⟩ | hdomain
      · rw [hdomain, (field?_dataRef _ _).2.2.2] at h
        cases h
      · rw [hdomain] at h
        cases h

/-! ### Inferred properties -/

theorem get?_implicit_infer {α : Type} (s : Split α) {key other : String} (value : α)
    (h : other ≠ key) : (s.infer key value).implicit.get? other = s.implicit.get? other := by
  unfold Split.infer
  split
  · rfl
  · exact (get?_insert _ _ _ _).trans (if_neg h)

theorem get?_implicit_inferWhen (s : Split Json) (condition : Bool) {key other : String} (value : Json)
    (h : other ≠ key) : (inferWhen condition key value s).implicit.get? other = s.implicit.get? other := by
  unfold inferWhen
  split
  · exact get?_implicit_infer s value h
  · rfl

theorem get?_implicit_inferSome (s : Split Json) {key other : String} (value : Option Json)
    (h : other ≠ key) : (inferSome key value s).implicit.get? other = s.implicit.get? other := by
  unfold inferSome
  split
  · exact get?_implicit_infer s _ h
  · rfl

theorem implicit_written (d : ChannelDef) : (written d).implicit = [] := by
  unfold written
  split
  · exact foldlRecOn (motive := fun s : Split Json => s.implicit = []) _ _ rfl
      fun s hs entry _ => congrArg (Dict.erase · entry.1) hs
  · rfl

theorem get?_implicit_typed (channel mark : String) (d : ChannelDef) :
    (typed channel d mark (written d)).1.implicit.get? "domain" = none := by
  unfold typed
  split
  · rw [implicit_written]
    rfl
  · show Dict.get? (Dict.insert _ _ _) _ = none
    rw [implicit_written]
    rfl

theorem implicit_ofDef {config : Config} {mark : Mark} {domain : Json}
    (h : (ofDef config v mark e d).props.implicit.get? "domain" = some domain) :
    ∃ type, domain = defaultDomain v e d.channel d type := by
  unfold ofDef at h
  rw [get?_implicit_inferWhen _ _ _ (by decide), get?_implicit_inferWhen _ _ _ (by decide),
    get?_implicit_inferSome _ _ (by decide), get?_implicit_inferWhen _ _ _ (by decide),
    get?_implicit_inferWhen _ _ _ (by decide)] at h
  have hdomain : (((typed d.channel d mark.type (written d)).1.infer "domain"
      (defaultDomain v e d.channel d
        (typed d.channel d mark.type (written d)).2)).implicit.get? "domain") = some domain := by
    split at h
    · exact h
    · rwa [get?_implicit_inferSome _ _ (by decide)] at h
  unfold Split.infer at hdomain
  split at hdomain
  · rw [get?_implicit_typed] at hdomain
    cases hdomain
  · rw [get?_insert] at hdomain
    exact ⟨_, (Option.some.inj hdomain).symm⟩

theorem of_mem_ofUnit {config : Config} {mark : Mark} {entry : String × Scale}
    (h : entry ∈ ofUnit config v mark e) : ∃ own ∈ Channel.scaled, ∃ d, e.get? own = some d ∧
      entry = (d.channel, ofDef config v mark e d) := by
  obtain ⟨s, hs, rfl⟩ := mem_map.mp ((mem_of_mem_extend h).resolve_right not_mem_nil)
  obtain ⟨own, hown, hs⟩ := mem_filterMap.mp hs
  obtain ⟨d, hd, hs⟩ := bind_eq_some_iff.mp hs
  split at hs
  · cases hs
  · cases hs
    exact ⟨own, hown, d, hd, rfl⟩

end Scale

/-! ### Scales of views -/

def View.scaling (v : View) : Body × String × Option Stacking × Dict Scale :=
  (v.body, v.name, v.stack, v.scales)

/-- The scales of a unit view are those of its channels, though views above may have taken them over. -/
def View.OwnScales (config : Config) (v : View) : Prop :=
  ∀ mark e, v.unit? = some (mark, e) → ∀ channel s, v.scales.get? channel = some s →
    ∃ own ∈ Channel.scaled, ∃ d, e.get? own = some d ∧ d.channel = channel ∧
      s.props = (Scale.ofDef config v mark e d).props

namespace View

variable {config : Config} {v w : View}

theorem OwnScales.of_scaling (h : v.OwnScales config) (hw : w.scaling = v.scaling) :
    w.OwnScales config := by
  obtain ⟨hbody, hname, hstack, hscales⟩ : w.body = v.body ∧ w.name = v.name ∧ w.stack = v.stack ∧
      w.scales = v.scales := by
    simpa [scaling] using hw
  intro mark e hunit channel s hs
  rw [unit?, hbody] at hunit
  rw [hscales] at hs
  obtain ⟨own, hown, d, hd, hchannel, hprops⟩ := h mark e hunit channel s hs
  refine ⟨own, hown, d, hd, hchannel, hprops.trans ?_⟩
  have hinner : w.inner = v.inner := funext fun text => by rw [inner, inner, hname]
  unfold Scale.ofDef Scale.defaultDomain Scale.dataDomain Scale.domainFields Scale.binSignal?
  rw [hinner, hstack, hname]

theorem ownScales_of_unit?_eq_none (h : v.unit? = none) : v.OwnScales config :=
  fun _ _ hunit => (nomatch h.symm.trans hunit)

theorem OwnScales.giveUpScale (h : v.OwnScales config) (channel : String) :
    (giveUpScale channel v).OwnScales config := by
  unfold View.giveUpScale
  split
  · rename_i s hs
    intro mark e hunit other s' hs'
    rw [get?_insert] at hs'
    split at hs'
    · rename_i hother
      cases hs'
      exact h mark e hunit other s (hother ▸ hs)
    · exact h mark e hunit other s' hs'
  · exact h

theorem ownScales_ofUnit {mark : Mark} {e : Encoding} (hunit : v.unit? = some (mark, e)) :
    OwnScales config { v with scales := Scale.ofUnit config v mark e } := by
  intro mark' e' hunit' channel s hs
  cases hunit.symm.trans hunit'
  obtain ⟨own, hown, d, hd, heq⟩ := Scale.of_mem_ofUnit (mem_of_get? hs)
  cases heq
  exact ⟨own, hown, d, hd, rfl, rfl⟩

theorem forall_mapChildren {P : View → Prop} {change : View → View} (hchange : ∀ v, P v → P (change v)) :
    (ts : List (Tree View)) → (∀ v ∈ Tree.preorders ts, P v) →
    ∀ v ∈ Tree.preorders (mapChildren change ts), P v
  | [], h, v, hv => h v hv
  | .node w children :: rest, h, v, hv => by
    rcases mem_append.mp hv with hv | hv
    · rcases mem_cons.mp hv with rfl | hv
      · exact hchange w (h w (mem_append_left _ mem_cons_self))
      · exact h v (mem_append_left _ (mem_cons_of_mem _ hv))
    · exact forall_mapChildren hchange rest (fun u hu => h u (mem_append_right _ hu)) v hv

theorem shareScale_own (m : Merging) (channel : String)
    (h : ∀ v ∈ Tree.preorders m.children, v.OwnScales config) :
    ∀ v ∈ Tree.preorders (shareScale m channel).value.children, v.OwnScales config := by
  unfold shareScale
  dsimp only
  split
  · exact h
  · split
    · exact forall_mapChildren (fun v hv => hv.giveUpScale channel) m.children h
    · exact h

theorem unit?_eq_of_body (h : w.body = v.body) : w.unit? = v.unit? := by
  unfold unit?
  rw [h]

theorem composeScales_own {children : List (Tree View)} (renames : Renames) (hunit : v.unit? = none)
    (h : ∀ w ∈ Tree.preorders children, w.OwnScales config) :
    ∀ w ∈ (composeScales v children renames).value.1.preorder, w.OwnScales config := by
  unfold composeScales
  generalize Channel.scaled = channels
  have hbody := (@see_shareScales Body View.body (fun _ _ _ => rfl) channels
    ⟨v, children, renames⟩).value.1
  intro w hw
  rcases mem_cons.mp hw with rfl | hw
  · exact ownScales_of_unit?_eq_none ((unit?_eq_of_body hbody).trans hunit)
  · exact shareScales_induction (P := fun m => ∀ w ∈ Tree.preorders m.children, w.OwnScales config)
      shareScale_own channels h w hw

mutual

theorem addScales_own (config : Config) : (t : Tree View) → (renames : Renames) →
    Body.Regular (t.map View.body) →
    ∀ v ∈ (addScales config renames t).value.1.preorder, v.OwnScales config
  | .node v children, renames, hregular => by
    unfold addScales
    split
    · rename_i mark e hunit
      cases children with
      | cons t rest => exact (nomatch (hregular.1 _ _ (body_of_unit? hunit)).2)
      | nil =>
        intro w hw
        rcases mem_cons.mp hw with rfl | hw
        · exact ownScales_ofUnit hunit
        · exact absurd hw not_mem_nil
    · rename_i hunit
      exact composeScales_own _ hunit (addScalesAll_own config children renames hregular.2)

theorem addScalesAll_own (config : Config) : (ts : List (Tree View)) → (renames : Renames) →
    Body.RegularAll (Tree.mapAll View.body ts) →
    ∀ v ∈ Tree.preorders (addScalesAll config renames ts).value.1, v.OwnScales config
  | [], _, _ => fun v hv => absurd hv not_mem_nil
  | t :: rest, renames, hregular => by
    unfold addScalesAll
    intro v hv
    rcases mem_append.mp hv with hv | hv
    · exact addScales_own config t renames hregular.1 v hv
    · exact addScalesAll_own config rest _ hregular.2 v hv

end

end View

namespace Compilation

variable {given : Config} {spec : Json} (c : Compilation given spec)

theorem regular_named : Body.Regular (c.named.map View.body) := by
  rw [(View.map_build c.chart).of_eq_ok c.named_eq]
  exact (Chart.regular_read spec).of_eq_ok c.chart_eq

theorem regular_selected : Body.Regular ((View.withSelections c.named).map View.body) := by
  rw [View.map_withSelections fun _ _ => rfl]
  exact c.regular_named

theorem regular_projected : Body.Regular (c.projected.1.map View.body) := by
  rw [c.map_projected fun _ _ _ _ _ => rfl]
  exact c.regular_named

theorem ownScales_grown {v : View} (hv : v ∈ c.grown.1.preorder) : v.OwnScales c.config := by
  have hmap : c.grown.1.map View.scaling = c.scaled.1.map View.scaling :=
    (View.map_withData (fun _ _ => rfl) c.grown_eq).trans
      (View.map_withProjections (fun _ _ => rfl) _).value
  obtain ⟨w, hw, hscaling⟩ := Tree.exists_of_map hmap hv
  exact (View.addScales_own c.config _ _ c.regular_selected w hw).of_scaling hscaling.symm

theorem keyed_grown {v : View} (hv : v ∈ c.grown.1.preorder) {mark : Mark} {e : Encoding}
    (hunit : v.unit? = some (mark, e)) : e.Keyed := by
  have hmem : v.body ∈ (c.projected.1.map View.body).preorder := by
    rw [← View.map_withData (fun _ _ => rfl) c.grown_eq, Tree.preorder_map]
    exact mem_map_of_mem hv
  rw [View.body_of_unit? hunit] at hmem
  exact Body.Regular.keyed _ c.regular_projected hmem

end Compilation

/-! ### Fields of domains -/

theorem Channel.projectedPosition?_scaled : ∀ channel ∈ Channel.scaled,
    View.projectedPosition? channel = none ∧ View.projectedPosition? (channel ++ "2") = none := by
  decide +kernel

theorem Route.atMain_domainFields {r : Route} {mark : Mark} {e : Encoding} {channel field : String}
    {d : ChannelDef} (hunit : r.view.unit? = some (mark, e)) (he : e.Keyed)
    (hchannel : channel ∈ Channel.scaled) (hd : e.get? channel = some d)
    (hserves : ∀ d ∈ Scale.domainDefs e channel, r.serves e d)
    (hfield : field ∈ d.outputName :: Scale.domainFields r.view e channel d) :
    r.AtMain e e.fieldNames field := by
  obtain ⟨hprimary, hsecondary⟩ := Channel.projectedPosition?_scaled channel hchannel
  have hfirst : r.AtMain e e.fieldNames d.outputName :=
    atMain_outputName hunit (Encoding.mem_defs_of_get? hd) (he.stands_of_get? hd) hprimary
      (hserves d (mem_append_left _ (by simp [hd])))
  rcases mem_cons.mp hfield with rfl | hfield
  · exact hfirst
  · unfold Scale.domainFields at hfield
    split at hfield
    · rename_i hstacked
      obtain ⟨s, hs, hsame⟩ := (any_eq_true _ _).mp hstacked
      exact atMain_stack hs (beq_iff_eq.mp hsame ▸ hd) _ hfield
    · rcases mem_cons.mp hfield with rfl | hfield
      · exact hfirst
      · obtain ⟨d', hd', rfl⟩ := map_eq_some_iff.mp (mem_toList.mp hfield)
        exact atMain_outputName hunit (Encoding.mem_defs_of_get? hd') (he.stands_of_get? hd')
          hsecondary (hserves d' (mem_append_right _ (by simp [hd'])))

/-- In the dataflow of a chart that is compiled, the main output of every unit view has the fields of
each domain that the user did not write, provided that the definitions find their fields before rows
are aggregated. The field by which a domain is sorted is there when the encoding does not aggregate. -/
theorem compile_domains_found {given : Config} {spec : Json} (c : Compilation given spec) :
    (compile given spec).outcome = .ok c.compiled ∧
      (View.routes [] false c.grown.1).map Route.view = c.grown.1.preorder ∧
      ∀ r ∈ View.routes [] false c.grown.1, ∀ mark e, r.view.unit? = some (mark, e) →
        ∃ part, r.view.dataPart = some part ∧ ∀ channel s domain,
          r.view.scales.get? channel = some s → s.props.implicit.get? "domain" = some domain →
          ((∀ d ∈ Scale.domainDefs e channel, r.serves e d) → ∀ ref ∈ Scale.domainRefs domain,
            ref.textField? "data" = some (r.view.inner "main") ∧ ∃ field,
              ref.textField? "field" = some field ∧
              c.grown.2.Carries e.fieldNames part.main field) ∧
          (e.hasAggregate = false → ∀ field, Scale.sortField? domain = some field →
            c.grown.2.Carries e.fieldNames part.main field) := by
  have hroutes := View.map_view_routes c.grown.1 [] false
  refine ⟨compile_eq_ok_iff.mpr ⟨c, rfl⟩, hroutes, fun r hr mark e hunit => ?_⟩
  have hv : r.view ∈ c.grown.1.preorder := hroutes ▸ mem_map_of_mem hr
  have hkeyed := c.keyed_grown hv hunit
  obtain ⟨part, hpart, hfed⟩ :=
    (View.withData_fed c.context e.fieldNames c.regular_projected).of_eq_ok c.grown_eq r hr
  refine ⟨part, hpart, fun channel s domain hs hdomain => ?_⟩
  obtain ⟨own, hown, d, hd, hchannel, hprops⟩ := c.ownScales_grown hv mark e hunit channel s hs
  have hstands := hkeyed.stands_of_get? hd
  have hsame : channel = own := hchannel.symm.trans hstands.channel
  rw [hprops] at hdomain
  obtain ⟨type, rfl⟩ := Scale.implicit_ofDef hdomain
  rw [hchannel, hsame]
  refine ⟨fun hserves ref href => ?_, fun haggregate field hfield => ?_⟩
  · obtain ⟨field, hfield, hdata, hread⟩ := Scale.domainRefs_defaultDomain href
    exact ⟨hdata, field, hread,
      hfed mark e hunit field (Route.atMain_domainFields hunit hkeyed hown hd hserves hfield)⟩
  · obtain ⟨rfl, order, hsort⟩ := Scale.sortField?_defaultDomain hfield
    exact hfed mark e hunit _ (Route.atMain_sortIndexName hunit (Encoding.mem_defs_of_get? hd) hstands
      hsort haggregate)

/-- Totals that a transform computes, shown in a custom order. -/
def sortedTotals : Json :=
  .object [
    ("data", .object [("values", .arr [.object [("a", .str "u"), ("b", .nat 1)]])]),
    ("transform", .arr [.object [("groupby", .texts ["a"]), ("aggregate", .arr [
      .object [("op", .str "sum"), ("field", .str "b"), ("as", .str "total")]])]]),
    ("mark", .str "bar"),
    ("encoding", .object [
      ("x", .object [("field", .str "a"), ("type", .str "nominal"), ("sort", .texts ["v", "u"])]),
      ("y", .object [("field", .str "total"), ("type", .str "quantitative")])])]

/-- What a view tells of the domain of a channel. -/
structure Outlook where
  /-- The fields that the encoding names. -/
  names : List String
  aggregates : Bool
  /-- Whether the definitions of the domain find their fields. -/
  finds : Bool
  main : NodeId
  /-- The fields to which the domain refers. -/
  fields : List (Option String)
  sort : Option String
deriving DecidableEq

/-- The domain of a channel of a unit view, unless the user wrote it. -/
def Route.outlook? (channel : String) (r : Route) : Option Outlook := do
  let unit ← r.view.unit?
  let part ← r.view.dataPart
  let s ← r.view.scales.get? channel
  let domain ← s.props.implicit.get? "domain"
  return {
    names := unit.2.fieldNames
    aggregates := unit.2.hasAggregate
    finds := (Scale.domainDefs unit.2 channel).all (r.serves unit.2)
    main := part.main
    fields := (Scale.domainRefs domain).map fun ref => ref.textField? "field"
    sort := Scale.sortField? domain
  }

theorem Route.of_outlook? {r : Route} {channel : String} {o : Outlook} (h : r.outlook? channel = some o) :
    ∃ mark e part s domain, r.view.unit? = some (mark, e) ∧ e.fieldNames = o.names ∧
      e.hasAggregate = o.aggregates ∧ ((∀ d ∈ Scale.domainDefs e channel, r.serves e d) ↔ o.finds) ∧
      r.view.dataPart = some part ∧ part.main = o.main ∧ r.view.scales.get? channel = some s ∧
      s.props.implicit.get? "domain" = some domain ∧
      (Scale.domainRefs domain).map (fun ref => ref.textField? "field") = o.fields ∧
      Scale.sortField? domain = o.sort := by
  obtain ⟨⟨mark, e⟩, hunit, h⟩ := bind_eq_some_iff.mp h
  obtain ⟨part, hpart, h⟩ := bind_eq_some_iff.mp h
  obtain ⟨s, hs, h⟩ := bind_eq_some_iff.mp h
  obtain ⟨domain, hdomain, h⟩ := bind_eq_some_iff.mp h
  cases h
  exact ⟨mark, e, part, s, domain, hunit, rfl, rfl, all_eq_true.symm, hpart, rfl, hs, hdomain, rfl,
    rfl⟩

theorem compile_sortedTotals : ∃ c : Compilation {} sortedTotals,
    (compile {} sortedTotals).outcome = .ok c.compiled ∧ ∃ r ∈ View.routes [] false c.grown.1,
      ∃ mark e part s domain, r.view.unit? = some (mark, e) ∧ r.view.dataPart = some part ∧
        r.view.scales.get? "x" = some s ∧ s.props.implicit.get? "domain" = some domain ∧
        e.hasAggregate = false ∧ (∀ d ∈ Scale.domainDefs e "x", r.serves e d) ∧
        (Scale.domainRefs domain).map (fun ref => ref.textField? "field") = [some "a"] ∧
        c.grown.2.Carries ["a", "total"] part.main "a" ∧
        Scale.sortField? domain = some "x_a_sort_index" ∧
        c.grown.2.Carries ["a", "total"] part.main "x_a_sort_index" := by
  have hfacts : (Compilation.run {} sortedTotals).map (fun c =>
      (View.routes [] false c.grown.1).map (Route.outlook? "x")) =
      some [some ⟨["a", "total"], false, true, 7, [some "a"], some "x_a_sort_index"⟩] := by
    decide +kernel
  obtain ⟨c, -, hfacts⟩ := map_eq_some_iff.mp hfacts
  obtain ⟨r, hr, hlook⟩ := map_eq_singleton_iff.mp hfacts
  obtain ⟨mark, e, part, s, domain, hunit, hnames, haggregate, hserves, hpart, -, hs, hdomain, hrefs,
    hsort⟩ := Route.of_outlook? hlook
  obtain ⟨hcompile, -, hfound⟩ := compile_domains_found c
  have hmem : r ∈ View.routes [] false c.grown.1 := hr ▸ mem_cons_self
  obtain ⟨part', hpart', hfound⟩ := hfound r hmem mark e hunit
  cases hpart.symm.trans hpart'
  obtain ⟨hrefers, hsorts⟩ := hfound "x" s domain hs hdomain
  rw [hnames] at hrefers hsorts
  obtain ⟨ref, href, hread⟩ := map_eq_singleton_iff.mp hrefs
  obtain ⟨-, field, hfield, hcarries⟩ := hrefers (hserves.mpr rfl) ref (href ▸ mem_cons_self)
  cases hread.symm.trans hfield
  exact ⟨c, hcompile, r, hmem, mark, e, part, s, domain, hunit, hpart, hs, hdomain, haggregate,
    hserves.mpr rfl, hrefs, hcarries, hsort, hsorts haggregate _ hsort⟩

/-- Sums for which the encoding asks, shown in a custom order. -/
def sortedSums : Json :=
  .object [
    ("data", .object [("values", .arr [.object [("a", .str "u"), ("b", .nat 1)]])]),
    ("mark", .str "bar"),
    ("encoding", .object [
      ("x", .object [("field", .str "a"), ("type", .str "nominal"), ("sort", .texts ["v", "u"])]),
      ("y", .object [("aggregate", .str "sum"), ("field", .str "b"), ("type", .str "quantitative")])])]

/-- The aggregate of an encoding drops the places in a custom order, by which the domain is sorted. -/
theorem compile_sortedSums : ∃ c : Compilation {} sortedSums,
    (compile {} sortedSums).outcome = .ok c.compiled ∧ ∃ r ∈ View.routes [] false c.grown.1,
      ∃ mark e part s domain, r.view.unit? = some (mark, e) ∧ r.view.dataPart = some part ∧
        r.view.scales.get? "x" = some s ∧ s.props.implicit.get? "domain" = some domain ∧
        (∀ d ∈ Scale.domainDefs e "x", r.serves e d) ∧
        Scale.sortField? domain = some "x_a_sort_index" ∧
        ¬ c.grown.2.Carries e.fieldNames part.main "x_a_sort_index" := by
  have hfacts : (Compilation.run {} sortedSums).map (fun c =>
      (View.routes [] false c.grown.1).map (Route.outlook? "x")) =
      some [some ⟨["a", "b"], true, true, 6, [some "a"], some "x_a_sort_index"⟩] := by
    decide +kernel
  -- Neither the output nor the filter above it writes the places, and the aggregate lets none through.
  have hlacks : (Compilation.run {} sortedSums).map (fun c =>
      c.grown.2.lacks "x_a_sort_index" 3 6) = some true := by
    decide +kernel
  obtain ⟨c, hc, hfacts⟩ := map_eq_some_iff.mp hfacts
  rw [hc, map_some, Option.some.injEq] at hlacks
  obtain ⟨r, hr, hlook⟩ := map_eq_singleton_iff.mp hfacts
  obtain ⟨mark, e, part, s, domain, hunit, -, -, hserves, hpart, hmain, hs, hdomain, -, hsort⟩ :=
    Route.of_outlook? hlook
  refine ⟨c, compile_eq_ok_iff.mpr ⟨c, rfl⟩, r, hr ▸ mem_cons_self, mark, e, part, s, domain,
    hunit, hpart, hs, hdomain, hserves.mpr rfl, hsort, ?_⟩
  rw [hmain]
  exact Forest.not_carries_of_lacks hlacks

end ChartPlan
