import ChartPlan.Proofs.Flow.Pass.Bins

/-!
# Merging siblings rewrites

Aggregates over the same groups, time units that agree and nodes with equal signatures become one.
Merged aggregates give the results of all that were merged (`Aggregate.merge?_extends`).

The passes that merge look at the children of one node. While they merge some, the others stay where
they are: `Family` says so, and every merge keeps it.
-/

namespace ChartPlan.Flow

open Forest List

variable {rowIds : Bool} {f g : Forest} {i j c above keep other : NodeId} {nodes : List NodeId}
  {p : Progress}

/-- Whether the nodes of a list that are still there are children of a node. -/
def Forest.Family (f : Forest) (above : NodeId) (nodes : List NodeId) : Prop :=
  ∀ c ∈ nodes, f.contains c → f.parent? c = some above

theorem Forest.Single.family_children (h : f.Single) (above : NodeId) :
    f.Family above (f.children above) := fun _ hc _ => h.parent?_eq_some.mpr hc

theorem Joined.family {m : Node} (h : Joined f g keep other m) (hfam : f.Family above nodes)
    (hk : f.contains keep) (hne : other ≠ above) : g.Family above nodes := by
  intro c hc hlive
  obtain ⟨hco, hold⟩ := h.contains_of_contains hk hlive
  rw [h.parent, if_neg hco, hfam c hc hold, if_neg (by simpa using Ne.symm hne)]

/-! ### Aggregates -/

namespace Aggregate

theorem Extends.refl (a : Aggregate) : a.Extends a :=
  ⟨rfl, id⟩

theorem Extends.trans {a b c : Aggregate} (h : a.Extends b) (h' : b.Extends c) : a.Extends c :=
  ⟨h.dimensions.trans h'.dimensions, fun hname => h.names (h'.names hname)⟩

theorem names_addNames (a : Aggregate) (field op : String) (more : List String)
    (field' op' : String) : (a.addNames field op more).names field' op' =
      if field' = field ∧ op' = op then (a.names field op).extend more else a.names field' op' := by
  simp only [names, addNames, Dict.get?_insert]
  by_cases hfield : field' = field
  · by_cases hop : op' = op <;> simp [hfield, hop, Dict.get?_insert]
  · simp [hfield]

theorem addNames_extends (a : Aggregate) (field op : String) (more : List String) :
    (a.addNames field op more).Extends a := by
  refine ⟨rfl, fun {field' op' name} hname => ?_⟩
  rw [names_addNames]
  split
  · rename_i hsame
    rw [hsame.1, hsame.2] at hname
    exact NameSet.mem_extend.mpr (.inl hname)
  · exact hname

theorem mem_results_of_names {a : Aggregate} {field op name : String}
    (h : name ∈ a.names field op) : ∃ group, (field, op, group) ∈ a.results ∧ name ∈ group := by
  unfold names at h
  cases hops : a.measures.get? field with
  | none => simp [hops] at h
  | some ops =>
    cases hgroup : ops.get? op with
    | none => simp [hops, hgroup] at h
    | some group =>
      refine ⟨group, ?_, by simpa [hops, hgroup] using h⟩
      exact mem_flatMap.mpr ⟨(field, ops), Dict.mem_of_get? hops,
        mem_map.mpr ⟨(op, group), Dict.mem_of_get? hgroup, rfl⟩⟩

theorem foldl_addNames_extends (results : List (String × String × NameSet)) (a : Aggregate) :
    (results.foldl (fun acc r => acc.addNames r.1 r.2.1 r.2.2) a).Extends a ∧
      ∀ r ∈ results, ∀ name ∈ r.2.2,
        name ∈ (results.foldl (fun acc r => acc.addNames r.1 r.2.1 r.2.2) a).names r.1 r.2.1 := by
  induction results generalizing a with
  | nil => exact ⟨.refl a, by simp⟩
  | cons first rest ih =>
    obtain ⟨hext, hmem⟩ := ih (a.addNames first.1 first.2.1 first.2.2)
    refine ⟨hext.trans (addNames_extends a _ _ _), fun r hr name hname => ?_⟩
    rcases mem_cons.mp hr with rfl | hr
    · refine hext.names ?_
      rw [names_addNames, if_pos ⟨rfl, rfl⟩]
      exact NameSet.mem_extend.mpr (.inr hname)
    · exact hmem r hr name hname

theorem merge?_extends {a b m : Aggregate} (h : a.merge? b = some m) : m.Extends a ∧ m.Extends b := by
  unfold merge? at h
  split at h
  · rename_i hdim
    obtain ⟨hext, hmem⟩ := foldl_addNames_extends b.results a
    cases h
    refine ⟨hext, hext.dimensions.trans hdim, fun {field op name} hname => ?_⟩
    obtain ⟨group, hgroup, hname⟩ := mem_results_of_names hname
    exact hmem _ hgroup name hname
  · cases h

end Aggregate

theorem aggregate?_bind_eq_some {a : Aggregate} : (f.node? i).bind Node.aggregate? = some a ↔
    f.node? i = some (.aggregate a) := by
  cases f.node? i with
  | none => simp
  | some n => cases n <;> simp [Node.aggregate?]

/-- Nodes with one parent. -/
structure Forest.Siblings (f : Forest) (i j : NodeId) : Prop where
  ne : i ≠ j
  parent : ∃ above, f.parent? i = some above ∧ f.parent? j = some above

/-- An aggregate takes over a sibling over the same groups. -/
inductive Pooling (f : Forest) : Forest → Prop
  | mk {keep other : NodeId} {a b m : Aggregate} : f.node? keep = some (.aggregate a) →
      f.node? other = some (.aggregate b) → a.merge? b = some m → f.Siblings keep other →
      Pooling f ((f.setNode keep (.aggregate m)).absorb keep other)

/-- A node takes over a sibling: they are aggregates or time units that become one, or their signatures
are equal. -/
inductive Union (f : Forest) : Forest → Prop
  | aggregates {g : Forest} : Pooling f g → Union f g
  | timeUnits {keep other : NodeId} {a b m : TimeUnits} : f.node? keep = some (.timeUnit a) →
      f.node? other = some (.timeUnit b) → a.merge? b = some m → f.Siblings keep other →
      Union f ((f.setNode keep (.timeUnit m)).absorb keep other)
  | equal {keep other : NodeId} {m n : Node} : f.node? keep = some m → f.node? other = some n →
      m.signature = n.signature → f.Siblings keep other → Union f (f.absorb keep other)

theorem revise_absorb_rewrites {n m k : Node} (hkeep : f.node? keep = some n)
    (hother : f.node? other = some k) (hsiblings : f.Siblings keep other) (hrevises : m.Revises n)
    (hsubsumes : m.Subsumes k) : Rewrites rowIds f ((f.setNode keep m).absorb keep other) := by
  obtain ⟨hne, above, hk, ho⟩ := hsiblings
  have hrevise : Rewrite rowIds f (f.setNode keep m) := .revise f.signals hkeep hrevises
  refine (Relation.ReflTransGen.single hrevise).tail (.join ?_ ?_ hsubsumes hne hk ho)
  · rw [node?_setNode, if_pos rfl, hkeep]
    rfl
  · rw [node?_setNode, if_neg (Ne.symm hne), hother]

theorem Union.tame : Tame rowIds Nothing Union := by
  refine .of_rewrites fun {f g} h _ => ?_
  cases h with
  | aggregates hpools =>
    obtain ⟨hk, ho, hmerge, hsiblings⟩ := hpools
    obtain ⟨hextends, hextends'⟩ := Aggregate.merge?_extends hmerge
    exact revise_absorb_rewrites hk ho hsiblings (.aggregate hextends) (.aggregate hextends')
  | timeUnits hk ho _ hsiblings =>
    exact revise_absorb_rewrites hk ho hsiblings (.timeUnits _ _) (.timeUnits _ _)
  | equal hk ho hsame hsiblings =>
    obtain ⟨hne, above, hkp, hop⟩ := hsiblings
    exact .single (.join hk ho (.equal hsame) hne hkp hop)

theorem Forest.Family.joined (h : f.Family above nodes) (hf : f.Linked) (hk : keep ∈ nodes)
    (ho : other ∈ nodes) (hne : keep ≠ other) (hkeep : f.contains keep) (hother : f.contains other)
    (m : Node) : f.Siblings keep other ∧
      Joined f ((f.setNode keep m).absorb keep other) keep other m ∧
      ((f.setNode keep m).absorb keep other).Family above nodes := by
  have hkp := h keep hk hkeep
  have hop := h other ho hother
  have hjoined := hf.joined_absorb hkeep (hf.not_below_sibling hkp hop hne) m f.signals
  exact ⟨⟨hne, above, hkp, hop⟩, hjoined, hjoined.family h hkeep (hf.ne_parent hop)⟩

/-- A linked forest in which nodes of a list are children of a node. -/
abbrev Progress.Holds (above : NodeId) (nodes : List NodeId) (p : Progress) : Prop :=
  p.forest.Linked ∧ p.forest.Family above nodes

theorem mergeAggregateInto_pools (hp : p.Holds above nodes) (hk : keep ∈ nodes)
    (ho : other ∈ nodes) (hne : keep ≠ other) :
    p.Does Nothing Pooling (mergeAggregateInto keep p other) ∧
      (mergeAggregateInto keep p other).Holds above nodes := by
  unfold mergeAggregateInto
  split
  · rename_i ours theirs hours htheirs
    rw [aggregate?_bind_eq_some] at hours htheirs
    split
    · rename_i merged hmerge
      obtain ⟨hsiblings, hjoined, hfam⟩ := hp.2.joined hp.1 hk ho hne (contains_of_node? hours)
        (contains_of_node? htheirs) (.aggregate merged)
      exact ⟨.change (.mk hours htheirs hmerge hsiblings), hjoined.linked, hfam⟩
    · exact ⟨.refl p, hp⟩
  · exact ⟨.refl p, hp⟩

theorem joinAggregates_pools (group : List NodeId) (hnodup : group.Nodup) (hsub : group ⊆ nodes)
    (hp : p.Holds above nodes) :
    p.Does Nothing Pooling (joinAggregates p group) ∧ (joinAggregates p group).Holds above nodes := by
  cases group with
  | nil => exact ⟨.refl p, hp⟩
  | cons keep rest =>
    refine Progress.Does.foldl id rest (fun q other hother hq => ?_) hp
    have hne : keep ≠ other := fun he => (nodup_cons.mp hnodup).1 (he ▸ hother)
    exact mergeAggregateInto_pools hq (hsub mem_cons_self)
      (hsub (mem_cons_of_mem _ hother)) hne

theorem mem_aggregateGroups (hnodup : nodes.Nodup) :
    ∀ entry ∈ aggregateGroups f nodes, entry.2.Nodup ∧ entry.2 ⊆ nodes := by
  unfold aggregateGroups
  induction nodes using reverseRecOn with
  | nil => exact fun _ h => absurd h not_mem_nil
  | append_singleton done i ih =>
    obtain ⟨hdone, -, hapart⟩ := nodup_append.mp hnodup
    have hgroups := ih hdone
    rw [foldl_append, foldl_cons, foldl_nil]
    generalize done.foldl (addToGroup f) [] = groups at hgroups
    intro entry hentry
    have hold : ∀ entry ∈ groups, entry.2.Nodup ∧ entry.2 ⊆ done ++ [i] := fun e he =>
      ⟨(hgroups e he).1, List.Subset.trans (hgroups e he).2 (subset_append_left _ _)⟩
    unfold addToGroup at hentry
    split at hentry
    · rename_i a _
      rcases Dict.mem_of_mem_insert hentry with rfl | hentry
      · -- The group of the node so far is made of nodes before it.
        have hgroup : ((groups.get? a.groupKey).getD []).Nodup ∧
            (groups.get? a.groupKey).getD [] ⊆ done := by
          cases hget : groups.get? a.groupKey with
          | none => simp
          | some group => exact hgroups _ (Dict.mem_of_get? hget)
        exact ⟨nodup_append.mpr ⟨hgroup.1, by simp, fun j hj => hapart j (hgroup.2 hj)⟩,
          append_subset.mpr ⟨List.Subset.trans hgroup.2 (subset_append_left _ _),
            subset_append_right _ _⟩⟩
      · exact hold entry hentry
    · exact hold entry hentry

theorem gatherAggregates_pools (hp : p.forest.Linked) (i : NodeId) :
    ∃ step q, gatherAggregates p i = .ok (step, q) ∧ p.Does Nothing Pooling q ∧ q.forest.Linked := by
  unfold gatherAggregates
  split
  · exact ⟨.stop, p, rfl, .refl p, hp⟩
  · rename_i above habove
    have hgroups := mem_aggregateGroups (f := p.forest) (hp.single.nodup_children above)
    refine ⟨.parent, _, rfl, And.imp_right And.left (Progress.Does.foldl id
      (I := Progress.Holds above (p.forest.children above)) _ (fun q group hgroup hq => ?_)
      ⟨hp, hp.single.family_children above⟩)⟩
    obtain ⟨entry, hentry, rfl⟩ := mem_map.mp hgroup
    exact joinAggregates_pools entry.2 (hgroups entry hentry).1 (hgroups entry hentry).2 hq

theorem gatherAggregates_does : (Climb.ofVisit gatherAggregates).Does Nothing Union := by
  refine Climb.does_ofVisit fun p i hp _ => ?_
  obtain ⟨step, q, heq, hdoes, -⟩ := gatherAggregates_pools hp.toLinked i
  exact ⟨step, q, heq, hdoes.mono .aggregates⟩

/-! ### Time units -/

theorem timeUnit?_bind_eq_some {t : TimeUnits} : (f.node? i).bind Node.timeUnit? = some t ↔
    f.node? i = some (.timeUnit t) := by
  cases f.node? i with
  | none => simp
  | some n => cases n <;> simp [Node.timeUnit?]

theorem findTimeUnits_eq_some {theirs merged : TimeUnits} {kept : List NodeId}
    (h : findTimeUnits f theirs kept = some (keep, merged)) :
    keep ∈ kept ∧ ∃ ours, f.node? keep = some (.timeUnit ours) ∧ ours.merge? theirs = some merged := by
  induction kept with
  | nil => cases h
  | cons first rest ih =>
    unfold findTimeUnits at h
    split at h
    · rename_i hfound
      cases h
      obtain ⟨ours, hours, hmerge⟩ := Option.bind_eq_some_iff.mp hfound
      exact ⟨mem_cons_self, ours, timeUnit?_bind_eq_some.mp hours, hmerge⟩
    · obtain ⟨hmem, hours⟩ := ih h
      exact ⟨mem_cons_of_mem _ hmem, hours⟩

theorem findTimeUnits_eq_none {theirs ours : TimeUnits} {kept : List NodeId}
    (h : findTimeUnits f theirs kept = none) (hk : keep ∈ kept) (hours : f.node? keep = some (.timeUnit ours)) :
    ours.merge? theirs = none := by
  induction kept with
  | nil => cases hk
  | cons first rest ih =>
    unfold findTimeUnits at h
    split at h
    · cases h
    · rename_i hnone
      rcases mem_cons.mp hk with rfl | hk
      · rwa [hours] at hnone
      · exact ih h hk

/-- What happens to a child: it is no time unit, or it agrees with none that was kept and is kept itself,
or the first one with which it agrees takes it over. -/
theorem placeTimeUnit_cases (p : Progress) (kept : List NodeId) (i : NodeId) :
    ((∀ t, p.forest.node? i ≠ some (.timeUnit t)) ∧ placeTimeUnit (p, kept) i = (p, kept)) ∨
    ∃ theirs, p.forest.node? i = some (.timeUnit theirs) ∧
      ((∀ keep ∈ kept, ∀ ours, p.forest.node? keep = some (.timeUnit ours) → ours.merge? theirs = none) ∧
          placeTimeUnit (p, kept) i = (p, kept ++ [i]) ∨
        ∃ keep ∈ kept, ∃ ours merged, p.forest.node? keep = some (.timeUnit ours) ∧
          ours.merge? theirs = some merged ∧ placeTimeUnit (p, kept) i =
            (p.change ((p.forest.setNode keep (.timeUnit merged)).absorb keep i), kept)) := by
  unfold placeTimeUnit
  dsimp only
  split
  · rename_i theirs htheirs
    refine .inr ⟨theirs, timeUnit?_bind_eq_some.mp htheirs, ?_⟩
    split
    · rename_i keep merged hfound
      obtain ⟨hmem, ours, hours, hmerge⟩ := findTimeUnits_eq_some hfound
      exact .inr ⟨keep, hmem, ours, merged, hours, hmerge, rfl⟩
    · rename_i hnone
      exact .inl ⟨fun _ hk _ hours => findTimeUnits_eq_none hnone hk hours, rfl⟩
  · rename_i hnone
    refine .inl ⟨fun t ht => ?_, rfl⟩
    rw [timeUnit?_bind_eq_some.mpr ht] at hnone
    cases hnone

theorem placeTimeUnit_does {kept : List NodeId} (hp : p.Holds above nodes) (hkept : kept ⊆ nodes)
    (hi : i ∈ nodes) (hnot : i ∉ kept) :
    p.Does Nothing Union (placeTimeUnit (p, kept) i).1 ∧
      (placeTimeUnit (p, kept) i).1.Holds above nodes ∧ (placeTimeUnit (p, kept) i).2 ⊆ kept ++ [i] := by
  rcases placeTimeUnit_cases p kept i with ⟨-, heq⟩ | ⟨theirs, htheirs, ⟨-, heq⟩ |
    ⟨keep, hmem, ours, merged, hours, hmerge, heq⟩⟩
  · rw [heq]
    exact ⟨.refl p, hp, by simp⟩
  · rw [heq]
    exact ⟨.refl p, hp, fun _ h => h⟩
  · rw [heq]
    obtain ⟨hsiblings, hjoined, hfam⟩ := hp.2.joined hp.1 (hkept hmem) hi (fun he => hnot (he ▸ hmem))
      (contains_of_node? hours) (contains_of_node? htheirs) (.timeUnit merged)
    exact ⟨.change (.timeUnits hours htheirs hmerge hsiblings), ⟨hjoined.linked, hfam⟩, by simp⟩

theorem joinTimeUnits_does (hp : p.forest.Linked) (above : NodeId) :
    p.Does Nothing Union (joinTimeUnits p above) := by
  -- The nodes that were kept come before those that are still to be placed.
  suffices h : ∀ (done rest kept : List NodeId) (q : Progress), done ++ rest = p.forest.children above →
      kept ⊆ done → q.Holds above (done ++ rest) →
      q.Does Nothing Union (rest.foldl placeTimeUnit (q, kept)).1 from
    h [] (p.forest.children above) [] p rfl (by simp) ⟨hp, hp.single.family_children above⟩
  intro done rest
  induction rest generalizing done with
  | nil => exact fun _ q _ _ _ => .refl q
  | cons i rest ih =>
    intro kept q hall hkept hq
    have hnodup : (done ++ i :: rest).Nodup := hall ▸ hp.single.nodup_children above
    have hi : i ∉ done := fun hmem => (nodup_append.mp hnodup).2.2 i hmem i (by simp) rfl
    obtain ⟨hstep, hq', hkept'⟩ := placeTimeUnit_does hq
      (fun j hj => mem_append_left _ (hkept hj)) (i := i) (by simp) fun h => hi (hkept h)
    rw [append_cons] at hall hq'
    refine hstep.trans (ih (done ++ [i]) (placeTimeUnit (q, kept) i).2 (placeTimeUnit (q, kept) i).1
      hall (fun j hj => ?_) hq')
    rcases mem_append.mp (hkept' hj) with hj | hj
    · exact mem_append_left _ (hkept hj)
    · exact mem_append_right _ hj

theorem gatherTimeUnits_does : (Climb.ofVisit gatherTimeUnits).Does Nothing Union := by
  refine Climb.does_ofVisit fun p i hp hi => ?_
  unfold gatherTimeUnits
  split
  · exact ⟨.stop, p, rfl, .refl p⟩
  · exact ⟨.parent, _, rfl, joinTimeUnits_does hp.toLinked _⟩

/-- A time unit that cuts nothing is removed. -/
inductive Vacates : Forest → Forest → Prop
  | remove {f : Forest} {i : NodeId} {t : TimeUnits} :
      f.node? i = some (.timeUnit t) → t.cuts = [] → Vacates f (f.remove i)

/-- A time unit loses cuts, or it is removed when it has none. -/
inductive Thinning (f : Forest) : Forest → Prop
  | cut {i : NodeId} {unit rest : TimeUnits} : f.node? i = some (.timeUnit unit) →
      rest.cuts.length < unit.cuts.length → Thinning f (f.setNode i (.timeUnit rest))
  | vacate {g : Forest} : Vacates f g → Thinning f g

theorem Thinning.tame : Tame rowIds Vacates Thinning where
  rewrites h _ := by
    cases h with
    | cut hi _ => exact .single (.revise _ hi (.timeUnits _ _))
    | vacate h =>
      obtain ⟨hi, -⟩ := h
      exact .single (.drop hi (.timeUnits _))
  loud := .vacate

theorem dropCuts_does (produced : NameSet) (p : Progress) (kept : List NodeId) (i : NodeId) :
    p.Does Vacates Thinning (dropCuts produced (p, kept) i).1 := by
  unfold dropCuts
  dsimp only
  split
  · exact .refl p
  · rename_i unit hunit
    have hle : (unit.without produced).cuts.length ≤ unit.cuts.length := length_filter_le _ _
    generalize unit.without produced = rest at hle
    -- The node loses cuts or is left alone, and is there either way.
    obtain ⟨q, hq, hsteps, hrest⟩ : ∃ q : Progress, q = (if rest.cuts.length == unit.cuts.length then p
        else p.change (p.forest.setNode i (.timeUnit rest))) ∧ p.Does Vacates Thinning q ∧
        (rest.cuts = [] → ∃ t : TimeUnits, q.forest.node? i = some (.timeUnit t) ∧ t.cuts = []) := by
      refine ⟨_, rfl, ?_⟩
      split
      · rename_i hsame
        refine ⟨.refl p, fun hnone => ⟨unit, hunit, ?_⟩⟩
        rw [hnone] at hsame
        exact length_eq_zero_iff.mp (beq_iff_eq.mp hsame).symm
      · rename_i hless
        refine ⟨.change (.cut hunit (Nat.lt_of_le_of_ne hle (by simpa using hless))),
          fun hnone => ⟨rest, ?_, hnone⟩⟩
        show (p.forest.setNode i _).node? i = _
        rw [node?_setNode, if_pos rfl, hunit]
        rfl
    rw [← hq]
    split
    · rename_i hempty
      obtain ⟨t, ht, hnone⟩ := hrest (isEmpty_iff.mp hempty)
      exact ⟨hsteps.makes.tail (.silent (.remove ht hnone)), hsteps.warns⟩
    · exact hsteps
  · exact .refl p

theorem dropBelow_does : Climb.Does Vacates Thinning { start := [], visit := dropBelow } := by
  intro seen p i _ _
  show ∃ step memory q, dropBelow seen p i = .ok (step, memory, q) ∧ _
  unfold dropBelow
  split
  · rename_i unit _
    exact ⟨.parent, _, _, rfl, (Progress.Does.foldl Prod.fst (I := fun _ => True) (s := (p, []))
      seen (fun s j _ _ => ⟨dropCuts_does unit.produced s.1 s.2 j, trivial⟩) trivial).1⟩
  · exact ⟨.parent, _, p, rfl, .refl p⟩

/-! ### Equal signatures -/

theorem perm_addToBucket (signature : String) (i : NodeId) (found : List (String × List NodeId)) :
    ((addToBucket signature i found).flatMap Prod.snd).Perm (found.flatMap Prod.snd ++ [i]) := by
  induction found with
  | nil => simp [addToBucket]
  | cons bucket rest ih =>
    unfold addToBucket
    split
    · simp only [flatMap_cons, append_assoc]
      exact (perm_append_comm).append_left bucket.2
    · simp only [flatMap_cons, append_assoc]
      exact ih.append_left bucket.2

theorem mem_addToBucket {signature : String} {found : List (String × List NodeId)}
    {P : String → NodeId → Prop} (hi : P signature i)
    (hfound : ∀ bucket ∈ found, ∀ c ∈ bucket.2, P bucket.1 c) :
    ∀ bucket ∈ addToBucket signature i found, ∀ c ∈ bucket.2, P bucket.1 c := by
  induction found with
  | nil => simpa [addToBucket] using hi
  | cons bucket rest ih =>
    obtain ⟨hbucket, hrest⟩ := forall_mem_cons.mp hfound
    unfold addToBucket
    split
    · rename_i hsame
      refine forall_mem_cons.mpr ⟨fun c hc => ?_, hrest⟩
      rcases mem_append.mp hc with hc | hc
      · exact hbucket c hc
      · rw [mem_singleton.mp hc, beq_iff_eq.mp hsame]
        exact hi
    · exact forall_mem_cons.mpr ⟨hbucket, ih hrest⟩

theorem buckets_spec (f : Forest) (nodes : List NodeId) :
    ((buckets f nodes).flatMap Prod.snd).Perm nodes ∧
      ∀ bucket ∈ buckets f nodes, ∀ c ∈ bucket.2, signatureOf f c = bucket.1 := by
  unfold buckets
  induction nodes using reverseRecOn with
  | nil => exact ⟨.nil, by simp⟩
  | append_singleton done i ih =>
    rw [foldl_append, foldl_cons, foldl_nil]
    exact ⟨(perm_addToBucket _ i _).trans (ih.1.append_right [i]),
      mem_addToBucket (P := fun s c => signatureOf f c = s) rfl ih.2⟩

theorem joinBucket_does {contents : NodeId → Option Node} (bucket : String × List NodeId)
    {tail : List NodeId} (hp : p.forest.Planted) (hnodup : (bucket.2 ++ tail).Nodup)
    (hsame : ∀ c ∈ bucket.2, ((contents c).map Node.signature).getD "" = bucket.1)
    (hnodes : ∀ c ∈ bucket.2 ++ tail, p.forest.parent? c = some above ∧ p.forest.node? c = contents c) :
    p.Does Nothing Union (joinBucket p bucket) ∧ ∀ c ∈ tail,
      (joinBucket p bucket).forest.parent? c = some above ∧
        (joinBucket p bucket).forest.node? c = contents c := by
  obtain ⟨signature, members⟩ := bucket
  cases members with
  | nil => exact ⟨.refl p, fun c hc => hnodes c hc⟩
  | cons keep rest =>
    show p.Does Nothing Union (rest.foldl _ p) ∧ ∀ c ∈ tail,
      (rest.foldl _ p).forest.parent? c = some above ∧ (rest.foldl _ p).forest.node? c = contents c
    induction rest generalizing p with
    | nil => exact ⟨.refl p, fun c hc => hnodes c (by simp [hc])⟩
    | cons other rest ih =>
      obtain ⟨hkeep, htail⟩ := nodup_cons.mp hnodup
      obtain ⟨hother, htail⟩ := nodup_cons.mp htail
      have hne : keep ≠ other := fun he => hkeep (he ▸ mem_cons_self)
      have hmore : ∀ {nodes : List NodeId} {c}, c ∈ keep :: nodes → c ∈ keep :: other :: nodes :=
        fun hc => by
          simp only [mem_cons] at hc ⊢
          tauto
      obtain ⟨hkp, hkn⟩ := hnodes keep (by simp)
      obtain ⟨hop, hon⟩ := hnodes other (by simp)
      obtain ⟨m, hm⟩ := exists_node (hp.live_of_parent? hkp).2
      obtain ⟨n, hn⟩ := exists_node (hp.live_of_parent? hop).2
      have hequal : m.signature = n.signature := by
        have h1 := hsame keep (by simp)
        have h2 := hsame other (by simp)
        rw [← hkn, hm] at h1
        rw [← hon, hn] at h2
        exact h1.trans h2.symm
      have hstep : p.Does Nothing Union (p.change (p.forest.absorb keep other)) :=
        .change (.equal hm hn hequal ⟨hne, above, hkp, hop⟩)
      have hrest := ih (p := p.change (p.forest.absorb keep other))
        (hstep.planted (@Union.tame false) hp)
        (nodup_cons.mpr ⟨not_mem_of_not_mem_cons hkeep, htail⟩) (fun c hc => hsame c (hmore hc))
        fun c hc => ?_
      · exact ⟨hstep.trans hrest.1, hrest.2⟩
      · have hco : c ≠ other := by
          rintro rfl
          exact (mem_cons.mp hc).elim (fun he => hne he.symm) hother
        obtain ⟨hcp, hcn⟩ := hnodes c (hmore hc)
        refine ⟨?_, ?_⟩
        · show (p.forest.absorb keep other).parent? c = _
          rw [hp.parent?_absorb (contains_of_node? hm)
            (hp.not_below_sibling hkp hop hne), if_neg hco, hcp,
            if_neg (by simpa using Ne.symm (hp.ne_parent hop))]
        · show (p.forest.absorb keep other).node? c = _
          rw [node?_absorb, if_neg hco, hcn]

theorem joinEqual_does (hp : p.forest.Planted) (i : NodeId) :
    p.Does Nothing Union (joinEqual p i) := by
  obtain ⟨hperm, hsignature⟩ := buckets_spec p.forest (p.forest.children i)
  unfold joinEqual
  suffices h : ∀ (found : List (String × List NodeId)) (q : Progress), q.forest.Planted →
      (found.flatMap Prod.snd).Nodup →
      (∀ bucket ∈ found, ∀ c ∈ bucket.2, signatureOf p.forest c = bucket.1) →
      (∀ c ∈ found.flatMap Prod.snd, q.forest.parent? c = some i ∧
        q.forest.node? c = p.forest.node? c) →
      q.Does Nothing Union (found.foldl joinBucket q) from
    h _ p hp (hperm.nodup_iff.mpr (hp.single.nodup_children i)) hsignature fun c hc =>
      ⟨hp.parent?_of_mem (hperm.mem_iff.mp hc), rfl⟩
  intro found
  induction found with
  | nil => exact fun q _ _ _ _ => .refl q
  | cons bucket rest ih =>
    intro q hq hnodup hsame hnodes
    rw [flatMap_cons] at hnodup hnodes
    obtain ⟨hstep, htail⟩ := joinBucket_does bucket hq hnodup (hsame bucket (by simp)) hnodes
    exact hstep.trans (ih _ (hstep.planted (@Union.tame false) hq) (nodup_append.mp hnodup).2.1
      (fun b hb => hsame b (by simp [hb])) htail)

theorem joinEqualBelow_does (fuel : Nat) (hp : p.forest.Planted) (i : NodeId) :
    p.Does Nothing Union (joinEqualBelow fuel p i) := by
  have htame : Tame false Nothing Union := Union.tame
  induction fuel generalizing p i with
  | zero => exact .refl p
  | succ fuel ih =>
    have hjoin := joinEqual_does hp i
    exact hjoin.trans (.foldl_planted htame (fun q c hq => ih hq c) _ (hjoin.planted htame hp))

theorem mergeIdenticalNodes_does (hf : f.Planted) :
    ∃ q, mergeIdenticalNodes f = .ok q ∧ Progress.Does Nothing Union { forest := f } q := by
  have htame : Tame false Nothing Union := Union.tame
  refine ⟨_, rfl, .foldl_planted htame (fun p root hp => ?_) f.sources hf⟩
  split
  · exact joinEqualBelow_does _ hp root
  · exact .refl p

end ChartPlan.Flow
