import ChartPlan.Proofs.Json.Fields
import ChartPlan.Proofs.Outcome
import ChartPlan.View.Stacking

/-!
# Stacking does not prefer an axis

When the definitions of the two axes are exchanged, the marks are stacked along the other axis, and
everything else about the stacks stays as it was.

* `Encoding.mirror`: the encoding with the axes exchanged.
* `Stacking.ofEncoding_mirror`: the stacks of a mirrored encoding.
-/

namespace ChartPlan

/-! ### Exchanged axes -/

def Channel.mirror (channel : String) : String :=
  match channel with
  | "x" => "y"
  | "y" => "x"
  | "x2" => "y2"
  | "y2" => "x2"
  | other => other

theorem Channel.mirror_mirror (channel : String) : mirror (mirror channel) = channel := by
  by_cases hx : channel = "x" ∨ channel = "y" ∨ channel = "x2" ∨ channel = "y2"
  · rcases hx with rfl | rfl | rfl | rfl <;> rfl
  · push Not at hx
    have hsame : mirror channel = channel := by
      unfold mirror
      split <;> simp_all
    rw [hsame, hsame]

theorem Channel.eq_mirror_iff {c k : String} : c = mirror k ↔ mirror c = k :=
  ⟨fun h => h ▸ mirror_mirror k, fun h => h ▸ (mirror_mirror c).symm⟩

namespace Encoding

/-- The encoding in which the definitions of `x` and `y` are exchanged, and those of `x2` and `y2`. -/
def mirror (e : Encoding) : Encoding :=
  ⟨Dict.ofList (e.channels.map fun entry => (Channel.mirror entry.1, entry.2))⟩

variable {e : Encoding}

section

variable (h : e.channels.Sorted)

include h

theorem defsOf_mirror (channel : String) :
    e.mirror.defsOf channel = e.defsOf (Channel.mirror channel) := by
  refine congrArg (Option.getD · []) ?_
  obtain ⟨channels⟩ := e
  show Dict.get? (Dict.ofList (channels.map _)) channel = Dict.get? channels _
  induction channels with
  | nil => rfl
  | cons entry rest ih =>
    obtain ⟨hfirst, hrest⟩ := List.pairwise_cons.mp h
    rw [List.map_cons, Dict.get?_ofList_cons, ih hrest, Dict.get?]
    by_cases hk : Channel.mirror channel = entry.1
    · have hnone : Dict.get? rest entry.1 = none := Dict.get?_eq_none fun e he => (hfirst e he).ne'
      simp [Channel.eq_mirror_iff, hk, hnone]
    · simp [Channel.eq_mirror_iff, hk]

theorem get?_mirror (channel : String) : e.mirror.get? channel = e.get? (Channel.mirror channel) :=
  congrArg List.head? (defsOf_mirror h channel)

theorem mem_defs {d : ChannelDef} : d ∈ e.defs ↔ ∃ channel, d ∈ e.defsOf channel := by
  unfold defs defsOf Dict.values
  simp only [List.mem_flatten, List.mem_map]
  constructor
  · rintro ⟨_, ⟨entry, hentry, rfl⟩, hd⟩
    exact ⟨entry.1, by rwa [h.get?_of_mem hentry]⟩
  · rintro ⟨channel, hd⟩
    cases hget : e.channels.get? channel with
    | none => simp [hget] at hd
    | some ds => exact ⟨ds, ⟨_, Dict.mem_of_get? hget, rfl⟩, by simpa [hget] using hd⟩

theorem hasAggregate_mirror : e.mirror.hasAggregate = e.hasAggregate := by
  have hmem : ∀ d, d ∈ e.mirror.defs ↔ d ∈ e.defs := by
    intro d
    rw [mem_defs (e := e.mirror) (Dict.sorted_ofList _), mem_defs h]
    constructor
    · rintro ⟨channel, hd⟩
      exact ⟨_, defsOf_mirror h channel ▸ hd⟩
    · rintro ⟨channel, hd⟩
      exact ⟨Channel.mirror channel, by rwa [defsOf_mirror h, Channel.mirror_mirror]⟩
  unfold hasAggregate
  rw [Bool.eq_iff_iff, List.any_eq_true, List.any_eq_true]
  simp only [hmem]

end

end Encoding

/-! ### Stacks -/

namespace Stacking

/-- The stacks along the other axis; those around a center stay. -/
def mirror (s : Stacking) : Stacking :=
  { s with channel := Channel.mirror s.channel, groupChannel := s.groupChannel.map Channel.mirror }

variable {e : Encoding}

theorem stackedOf_mirror (h : e.channels.Sorted) :
    stackedOf e.mirror "x" "y" = (stackedOf e "x" "y").map (Option.map Channel.mirror) ∧
      stackedOf e.mirror "theta" "radius" =
        (stackedOf e "theta" "radius").map (Option.map Channel.mirror) := by
  have hget := Encoding.get?_mirror h
  have hx : e.mirror.get? "x" = e.get? "y" := hget "x"
  have hy : e.mirror.get? "y" = e.get? "x" := hget "y"
  have htheta : e.mirror.get? "theta" = e.get? "theta" := hget "theta"
  have hradius : e.mirror.get? "radius" = e.get? "radius" := hget "radius"
  unfold stackedOf
  dsimp only
  rw [hx, hy, htheta, hradius]
  -- the cascade asks each definition three questions, and both readings take the same turns
  constructor
  · cases isRequested (e.get? "x") <;> cases isRequested (e.get? "y") <;>
      cases isMeasure (e.get? "x") <;> cases isMeasure (e.get? "y") <;>
      cases isAggregated (e.get? "x") <;> cases isAggregated (e.get? "y") <;> rfl
  · cases isRequested (e.get? "theta") <;> cases isRequested (e.get? "radius") <;>
      cases isMeasure (e.get? "theta") <;> cases isMeasure (e.get? "radius") <;>
      cases isAggregated (e.get? "theta") <;> cases isAggregated (e.get? "radius") <;> rfl

theorem layersOf_mirror (h : e.channels.Sorted) : layersOf e.mirror = layersOf e := by
  have hdefs : layerChannels.flatMap e.mirror.defsOf = layerChannels.flatMap e.defsOf := by
    unfold layerChannels
    simp only [List.flatMap_cons, List.flatMap_nil, Encoding.defsOf_mirror h]
    rfl
  funext acrossField
  unfold layersOf
  rw [hdefs]

/-- A channel along which marks can be stacked. -/
def IsStacked (channel : String) : Prop :=
  channel = "x" ∨ channel = "y" ∨ channel = "theta" ∨ channel = "radius"

theorem isStacked_of_stackedOf {a b channel : String} (ha : IsStacked a) (hb : IsStacked b)
    (h : stackedOf e a b = .ok (some channel)) : IsStacked channel := by
  have hone : channel = a ∨ channel = b := by
    unfold stackedOf at h
    grind
  rcases hone with rfl | rfl
  · exact ha
  · exact hb

theorem across_mirror {channel : String} (h : IsStacked channel) :
    across (Channel.mirror channel) = Channel.mirror (across channel) ∧
      secondary (Channel.mirror channel) = Channel.mirror (secondary channel) := by
  rcases h with rfl | rfl | rfl | rfl <;> exact ⟨rfl, rfl⟩

theorem along_mirror (h : e.channels.Sorted) {channel : String} (hchannel : IsStacked channel)
    (d : ChannelDef) (offset : String) :
    (along e.mirror (Channel.mirror channel) d offset).outcome =
      (along e channel d offset).outcome.map (Option.map mirror) := by
  obtain ⟨hacross, hsecondary⟩ := across_mirror hchannel
  have hfield : e.mirror.get? (across (Channel.mirror channel)) = e.get? (across channel) := by
    rw [hacross, Encoding.get?_mirror h, Channel.mirror_mirror]
  have hranged : e.mirror.has (secondary (Channel.mirror channel)) = e.has (secondary channel) := by
    unfold Encoding.has
    rw [hsecondary, Encoding.get?_mirror h, Channel.mirror_mirror]
  unfold along
  rw [hfield, hranged, hacross, layersOf_mirror h, Encoding.hasAggregate_mirror h]
  dsimp only
  generalize (e.get? (across channel)).map ChannelDef.outputName = acrossField
  cases offsets.contains offset with
  | false => rfl
  | true =>
    cases e.hasAggregate && (layersOf e acrossField).isEmpty with
    | true => rfl
    | false =>
      cases e.has (secondary channel) with
      | true => cases d.stack <;> rfl
      | false =>
        cases d.aggregate with
        | none => cases acrossField.any fun field => field != d.outputName <;> rfl
        | some op =>
          dsimp only
          cases acrossField.any (fun field => field != d.outputName) <;>
            cases summative.contains op <;> rfl

/-- Exchanging the axes of an encoding exchanges the axes of its stacks and changes nothing else:
stacking is refused with the same error, or nothing is stacked, or the same layers are stacked with
the same offset along the other axis. -/
theorem ofEncoding_mirror (mark : String) (e : Encoding) (h : e.channels.Sorted) :
    (ofEncoding mark e.mirror).outcome = (ofEncoding mark e).outcome.map (Option.map mirror) := by
  obtain ⟨hcartesian, hpolar⟩ := stackedOf_mirror h
  unfold ofEncoding
  simp only [Checked.outcome_bind, Checked.outcome_ofExcept, hcartesian, hpolar]
  cases hc : stackedOf e "x" "y" with
  | error err => rfl
  | ok cartesian =>
    cases hp : stackedOf e "theta" "radius" with
    | error err => rfl
    | ok polar =>
      have hor : (cartesian.map Channel.mirror).or (polar.map Channel.mirror) =
          (cartesian.or polar).map Channel.mirror := by
        cases cartesian <;> rfl
      have hstacked : ∀ channel ∈ cartesian.or polar, IsStacked channel := by
        intro channel hchannel
        rcases Option.or_eq_some_iff.mp hchannel with rfl | ⟨-, rfl⟩
        · exact isStacked_of_stackedOf (.inl rfl) (.inr (.inl rfl)) hc
        · exact isStacked_of_stackedOf (.inr (.inr (.inl rfl))) (.inr (.inr (.inr rfl))) hp
      simp only [Except.map, bind, Except.bind, hor]
      cases hch : cartesian.or polar with
      | none => rfl
      | some channel =>
        simp only [Option.map_some, Encoding.get?_mirror h, Channel.mirror_mirror]
        cases e.get? channel with
        | none => rfl
        | some d =>
          dsimp only
          cases stackableMarks.contains mark with
          | false => rfl
          | true =>
            cases offsetOf mark d with
            | none => rfl
            | some offset => exact along_mirror h (hstacked channel hch) d offset

/-- Bars of a measure along `x`, one for each place on `y`, with layers by color. -/
def coloredBars : Encoding :=
  let d (channel field : String) (type : FieldType) : ChannelDef :=
    ⟨channel, some field, type, none, none, none, none, none, none, none, none, none, none⟩
  ⟨[("color", [d "color" "kind" .nominal]), ("x", [d "x" "size" .quantitative]),
    ("y", [d "y" "place" .nominal])]⟩

theorem ofEncoding_mirror_coloredBars : coloredBars.channels.Sorted ∧
    (ofEncoding "bar" coloredBars).outcome.toOption.map (Option.map fun s =>
      (s.channel, s.groupChannel, s.offset)) = some (some ("x", some "y", "zero")) ∧
    (ofEncoding "bar" coloredBars.mirror).outcome =
      (ofEncoding "bar" coloredBars).outcome.map (Option.map mirror) := by
  have hsorted : coloredBars.channels.Sorted := by
    unfold Dict.Sorted
    decide
  exact ⟨hsorted, by decide, ofEncoding_mirror "bar" coloredBars hsorted⟩

end Stacking

end ChartPlan
