import ChartPlan.Proofs.Chart.Units
import ChartPlan.Proofs.Flow.Trace

/-!
# Nodes with one signature

The identity of a node and its transforms are written from the same data in two ways. What is in the
identity is told by its text, up to numbers that are written alike, and the transforms are made of
nothing else. So nodes with one signature write the same transforms and one may stand for the other. One
thing is not told: the identity has a null where nothing is given, so a null that is given is taken for
nothing, though the transform shows it.

* `Node.spelled_records`: the identity tells the transforms, one lemma for each kind of node above it.
* `Node.records_eq_of_signature`: the same for signatures and texts.
-/

namespace ChartPlan.Flow

open List Json

theorem map_eq_of_map_eq {α β γ : Type} {f : α → β} {g : α → γ} {xs ys : List α}
    (hfg : ∀ a ∈ xs, ∀ b ∈ ys, f a = f b → g a = g b) (h : xs.map f = ys.map f) : xs.map g = ys.map g := by
  refine ext_getElem? fun i => ?_
  have hi := congrArg (·[i]?) h
  simp only [getElem?_map] at hi ⊢
  cases hx : xs[i]? <;> cases hy : ys[i]? <;> simp [hx, hy] at hi ⊢
  exact hfg _ (mem_of_getElem? hx) _ (mem_of_getElem? hy) hi

theorem tells_frameJson : Tells frameJson :=
  (tells_int.option (by rintro _ ⟨⟩)).list

theorem tells_pair : Tells fun pair : String × String => .texts [pair.1, pair.2] := fun x y h => by
  simp only [spelled_texts, texts_inj, cons.injEq, and_true] at h
  exact Prod.ext h.1 h.2

theorem spelled_withGroups (record : Json) (groupby : List String) :
    (withGroups record groupby).spelled = withGroups record.spelled groupby := by
  unfold withGroups
  split
  · rfl
  · rw [spelled_withField, spelled_texts]

/-! ### Identities that tell the node -/

theorem Coercion.tells : Tells fun c : Coercion => .textFields c.kinds := by
  rintro ⟨c⟩ ⟨d⟩ h
  exact congrArg Coercion.mk (tells_str.dict h)

theorem ValidFilter.tells : Tells identity := by
  rintro ⟨c⟩ ⟨d⟩ h
  refine congrArg ValidFilter.mk (map_injective_iff.mpr ?_ (tells_texts h))
  rintro ⟨field, type⟩ ⟨field', type'⟩ hsame
  -- The type stands at the end, so the texts are compared from there.
  have hchars := congrArg (fun text => text.toList.reverse) hsame
  cases type <;> cases type' <;>
    simp [FieldType.label] at hchars <;> simp [String.toList_inj.mp hchars]

theorem GeoPoint.tells : Tells identity := by
  rintro ⟨a⟩ ⟨b⟩ h
  simp [identity, spelled] at h
  simp_all [Prod.ext_iff]

theorem GeoJson.tells : Tells identity := by
  rintro ⟨a⟩ ⟨b⟩ h
  simp only [identity, spelled, map_cons, map_nil, arr.injEq, cons.injEq] at h
  have hfields := tells_pair.option (by rintro _ ⟨⟩) h.1
  simp_all

theorem Pivot.tells : Tells identity := by
  rintro ⟨a⟩ ⟨b⟩ h
  simp [identity, spelled] at h
  have hnat : Tells Json.nat := fun _ _ h => Int.ofNat_inj.mp (tells_int h)
  have hlimit := hnat.option (by rintro _ ⟨⟩) h.2.2.2.1
  cases a
  cases b
  simp_all

/-! ### Identities that tell the transforms -/

theorem Stack.record_congr {a b : Stack} (h : a.identity.spelled = b.identity.spelled) :
    a.record = b.record := by
  have hf := spelled_fields h ["groupby", "facetby", "field", "sort", "offset", "as"]
  simp [identity, spelled] at hf
  simp [record, hf]

theorem JoinAggregate.record_congr {a b : JoinAggregate} (h : a.identity.spelled = b.identity.spelled) :
    a.record = b.record := by
  have hf := spelled_fields h ["ops", "as", "groupby", "fields"]
  simp [identity] at hf
  obtain ⟨hops, has, hgroup, hfields⟩ := hf
  have hflat := congrArg (map (Option.map Path.flatName)) (tells_text?.list hfields)
  simp only [map_map, Function.comp_def] at hflat
  simp [record, *]

theorem Lookup.record_congr {a b : Lookup} (h : a.identity.spelled = b.identity.spelled)
    (hsome : a.default.isSome = b.default.isSome) : a.record.value.spelled = b.record.value.spelled := by
  have hf := spelled_fields h ["lookup", "secondary", "key", "fields", "as", "default"]
  simp [identity, spelled] at hf
  obtain ⟨hfield, hsecondary, hkey, hfields, has, hdefault⟩ := hf
  have htexts := tells_texts.option (by rintro _ ⟨⟩)
  have hdefault' := map_spelled_of_ofOption hdefault hsome
  unfold record
  rw [hfield, hsecondary, hkey, htexts hfields, htexts has]
  cases b.fields <;> cases b.outputs <;> simp [spelled_withField?, hdefault']

theorem Estimation.record_congr {a b : Estimation} (h : a.identity.spelled = b.identity.spelled) :
    a.record.spelled = b.record.spelled := by
  have hname : Function.Injective Estimate.name := fun x y h => by
    cases x <;> cases y <;> simp_all [Estimate.name]
  simp only [identity, spelled, map_cons, map_nil, arr.injEq, cons.injEq, str.injEq, hname.eq_iff,
    spelled_ofText?_inj, spelled_texts, texts_inj, spelled_obj, obj.injEq, and_true] at h
  simp [record, spelled_withField, spelled_obj, spelledFields_extend, h]

theorem Window.record_congr {a b : Window} (h : a.identity.spelled = b.identity.spelled) :
    a.record.spelled = b.record.spelled := by
  have hf := spelled_fields h ["frame", "ignorePeers", "groupby", "window", "sort"]
  simp [identity] at hf
  obtain ⟨hframe, hpeers, hgroup, hops, hsort⟩ := hf
  have hframe' := tells_frameJson.option (by rintro _ ⟨⟩) hframe
  have hbool : Tells Json.bool := fun x y h => by simpa [spelled] using h
  have hpeers' := hbool.option (by rintro _ ⟨⟩) hpeers
  have hkey : Tells fun s : SortKey => .arr [.str s.field, .ofText? s.order] := fun x y h => by
    cases x
    cases y
    simpa [spelled] using h
  have hsort' := hkey.list hsort
  simp only [spelled, map_map, arr.injEq] at hops
  have hmap {β : Type} (g : WindowOp → β) (hg : ∀ o p, o.op = p.op → o.field = p.field →
      (ofOption o.param).spelled = (ofOption p.param).spelled → o.output = p.output → g o = g p) :
      a.spec.ops.map g = b.spec.ops.map g :=
    map_eq_of_map_eq (fun o _ p _ he => by simp [spelled] at he; exact hg o p he.1 he.2.1 he.2.2.1 he.2.2.2) hops
  have hop := hmap WindowOp.op (by simp +contextual)
  have hjoin : a.isJoin = b.isJoin := by
    have hall : ∀ w : Window, (w.spec.ops.all fun o => isAggregateOp o.op) =
        (w.spec.ops.map WindowOp.op).all isAggregateOp := fun w => all_map.symm
    rw [isJoin, isJoin, hall, hall, hframe', hop]
  unfold record
  rw [hjoin, hop, hmap WindowOp.field (by simp +contextual), hmap WindowOp.output (by simp +contextual),
    hsort', hframe', hpeers', hgroup]
  split
  · rfl
  · simp [spelled_withField?, spelled_withGroups, spelled_object, Dict.mapValues, spelled, Function.comp_def,
      hmap (fun o => (ofOption o.param).spelled) (by simp +contextual)]

theorem Impute.spelled_keyvals {v w : Json} (h : v.spelled = w.spelled) :
    (keyvals v).spelled = (keyvals w).spelled := by
  have hf : ∀ key, (v.field? key).map toText = (w.field? key).map toText := fun key =>
    map_eq_of_map_spelled (fun _ _ => toText_eq_iff.mpr) (spelled_fields h [key] key mem_cons_self)
  have hstart := congrArg (Option.getD · (nat 0).toText) (hf "start")
  have hstop := hf "stop"
  simp only [Option.getD_map] at hstart
  simp only [keyvals, hstart, hf "step"]
  cases hv : v.field? "stop" <;> cases hw : w.field? "stop" <;> simp_all

theorem Impute.records_congr {a b : Impute} (h : a.identity.spelled = b.identity.spelled)
    (hsome : a.spec.keyvals.isSome = b.spec.keyvals.isSome) :
    a.records.map spelled = b.records.map spelled := by
  simp [identity, spelled] at h
  obtain ⟨hfield, hkey, hkeyvals, hgroup, hframe, hmethod, hvalue⟩ := h
  have hframe' := tells_frameJson.option (by rintro _ ⟨⟩) hframe
  have hkeyvals' : (a.spec.keyvals.map keyvals).map spelled = (b.spec.keyvals.map keyvals).map spelled := by
    rw [Option.map_map, Option.map_map]
    exact map_eq_of_map_spelled (fun _ _ => spelled_keyvals) (map_spelled_of_ofOption hkeyvals hsome)
  have hby : a.byValue = b.byValue := by rw [byValue, byValue, hmethod]
  have hfill : a.fill.spelled = b.fill.spelled := by
    simp only [fill, spelled_withGroups, spelled_withField?, spelled_object, Dict.mapValues, hfield, hkey,
      hby, hgroup, map_cons, apply_ite spelled, hvalue, hkeyvals']
  unfold records
  rw [hby, hfield, hgroup, hframe', hmethod]
  split <;> simp [hfill]

theorem Binning.records_congr {a b : Binning} (h : a.identity.spelled = b.identity.spelled)
    (signals : Renames) : (a.records signals).map spelled = (b.records signals).map spelled := by
  have hf := spelled_fields h ["bin", "field", "as", "signal", "extent", "range"]
  simp [identity, spelled_obj] at hf
  obtain ⟨hparams, hfield, houtputs, hsignal, hextent, hrange⟩ := hf
  have hlabel : Tells fun r : RangeLabel => .texts [r.expr, r.output] := fun x y h => by
    cases x
    cases y
    simpa using h
  have hrange' := hlabel.option (by rintro _ ⟨⟩) hrange
  obtain ⟨houtput, hcopies⟩ := cons.inj (tells_pair.list houtputs)
  have hhas : a.params.has "extent" = b.params.has "extent" := by
    have hget := congrArg (fun d => (Dict.get? d "extent").isSome) hparams
    simpa [Dict.has, Dict.get?_mapValues] using hget
  unfold records binRecords
  simp only [map_append, hhas, tells_str hfield, houtput, hcopies, hrange', tells_str hsignal, tells_str hextent]
  split <;> simp [spelled_obj, spelledFields_insert, spelledFields_extend, hparams]

theorem Bins.records_congr {a b : Bins} (h : a.identity.spelled = b.identity.spelled) (signals : Renames) :
    (a.records signals).map spelled = (b.records signals).map spelled := by
  simp only [identity, spelled_obj, obj.injEq, Dict.mapValues, map_map] at h
  have hrecords := map_eq_of_map_eq (g := fun e => (e.2.records signals).map spelled)
    (fun e _ e' _ he => Binning.records_congr (Prod.ext_iff.mp he).2 signals) h
  simpa [records, Dict.values, map_flatMap, flatMap_map, flatMap_def, Function.comp_def] using
    congrArg flatten hrecords

/-- Cuts stand under the names of their results, and their units have been read. -/
def TimeUnits.Read (t : TimeUnits) : Prop :=
  ∀ entry ∈ t.cuts, entry.2.output = entry.1 ∧ ∃ value, TimeUnit.ofJson? value = some entry.2.unit

theorem TimeUnits.records_congr {a b : TimeUnits} (ha : a.Read) (hb : b.Read)
    (h : a.identity.spelled = b.identity.spelled) : a.records = b.records := by
  simp only [identity, spelled_obj, obj.injEq, Dict.mapValues, map_map] at h
  have hunit {u v : TimeUnit} {value value' : Json} (hu : TimeUnit.ofJson? value = some u)
      (hv : TimeUnit.ofJson? value' = some v) (hsame : u.fullName = v.fullName) : u = v := by
    rw [← TimeUnit.ofName_fullName (TimeUnit.marked_of_ofJson? value _ hu), hsame,
      TimeUnit.ofName_fullName (TimeUnit.marked_of_ofJson? value' _ hv)]
  refine congrArg (map TimeCut.record) (map_eq_of_map_eq ?_ h)
  rintro ⟨key, output, field, unit⟩ he ⟨key', output', field', unit'⟩ he' hsame
  obtain ⟨hname, hcut⟩ := Prod.ext_iff.mp hsame
  have hf := spelled_fields hcut ["field", "unit"]
  simp [spelled] at hf
  obtain ⟨houtput, _, hread⟩ := ha _ he
  obtain ⟨houtput', _, hread'⟩ := hb _ he'
  cases hunit hread hread' hf.2
  simp_all

/-! ### Nodes -/

namespace Node

/-- The option of a node that is spelled like a null when it is not given. -/
def optional? : Node → Option Json
  | .impute i => i.spec.keyvals
  | .lookup l => l.default
  | _ => none

/-- Whether the cuts of a node are as charts give them. -/
def CutsRead : Node → Prop
  | .timeUnit t => t.Read
  | _ => True

variable {m n : Node} (hm : m.CutsRead) (hn : n.CutsRead)
  (hsome : m.optional?.isSome = n.optional?.isSome)

include hm hn hsome

theorem spelled_records (hkind : m.kindName = n.kindName) (hid : m.identity.spelled = n.identity.spelled)
    (signals : Renames) : (m.records signals).value.map spelled = (n.records signals).value.map spelled := by
  cases m <;> cases n <;> try (simp [kindName] at hkind; done)
  case source.source | output.output | facet.facet | identifier.identifier => rfl
  case sequence.sequence | graticule.graticule | formula.formula | filter.filter | fold.fold
      | flatten.flatten | sample.sample | extent.extent => exact congrArg (fun r => [r]) hid
  case parse.parse => rw [Coercion.tells hid]
  case filterInvalid.filterInvalid => rw [ValidFilter.tells hid]
  case aggregate.aggregate => rw [Aggregate.tells hid]
  case pivot.pivot => rw [Pivot.tells hid]
  case geoPoint.geoPoint => rw [GeoPoint.tells hid]
  case geoJson.geoJson => rw [GeoJson.tells hid]
  case bin.bin => exact Bins.records_congr hid signals
  case timeUnit.timeUnit => exact congrArg (map spelled) (TimeUnits.records_congr hm hn hid)
  case joinAggregate.joinAggregate => exact congrArg (fun r => [r.spelled]) (JoinAggregate.record_congr hid)
  case stack.stack => exact congrArg (fun r => [r.spelled]) (Stack.record_congr hid)
  case lookup.lookup => exact congrArg (fun r => [r]) (Lookup.record_congr hid hsome)
  case window.window => exact congrArg (fun r => [r]) (Window.record_congr hid)
  case impute.impute => exact Impute.records_congr hid hsome
  case estimation.estimation => exact congrArg (fun r => [r]) (Estimation.record_congr hid)

/-- Nodes with one signature write the same transforms, whatever the final names of signals are, when
both give their option or both leave it out. -/
theorem records_eq_of_signature (h : m.signature = n.signature) (signals : Renames) :
    (m.records signals).value.map toText = (n.records signals).value.map toText := by
  obtain ⟨hkind, htext⟩ := signature_inj h
  exact map_eq_of_map_eq (fun _ _ _ _ => toText_eq_iff.mpr)
    (spelled_records hm hn hsome hkind (toText_eq_iff.mp htext) signals)

omit hm hn hsome

/-- Prices that are filled for some days with a value. -/
def filled (keyvals value : Option Json) : Node :=
  .impute ⟨⟨"price", "day", keyvals, [], none, none, value⟩⟩

theorem records_eq_of_signature_filled :
    filled (some (.nat 1)) none ≠ filled (some (.nat 1)) (some .null) ∧
    ∀ signals, ((filled (some (.nat 1)) none).records signals).value.map toText =
      ((filled (some (.nat 1)) (some .null)).records signals).value.map toText :=
  ⟨by simp [filled], records_eq_of_signature trivial trivial rfl rfl⟩

theorem signature_hides_null : (filled (some .null) none).signature = (filled none none).signature ∧
    ((filled (some .null) none).records {}).value.map toText ≠
      ((filled none none).records {}).value.map toText := by
  decide +kernel

end Node

end ChartPlan.Flow
