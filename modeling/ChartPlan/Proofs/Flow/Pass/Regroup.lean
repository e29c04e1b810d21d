import ChartPlan.Proofs.Flow.Measure

/-!
# Regrouping the children of a fork

Two passes give a fork a single child: coercions that siblings share go to a new node above them, and
outputs are put into a chain that ends above the others. Both add links, and the second moves whole
branches, but afterwards more is on one way down from a root.

* `Hoists`: where nodes are when siblings have moved below a shared coercion.
* `Planted.rank_hoist_lt`: sharing coercions lowers the rank.
* `Chaining.rank_lt`: a node that moves down below a chain of outputs lowers the rank.
-/

namespace ChartPlan

open List

/-! ### Names of shared coercions -/

namespace Dict

variable {α : Type} {d : Dict α} {key : String} {v : α}

theorem perm_keys_insert (h : d.get? key = none) : (d.insert key v).keys.Perm (key :: d.keys) := by
  induction d with
  | nil => exact .refl _
  | cons entry rest ih =>
    unfold get? at h
    split at h
    · cases h
    · rename_i hne
      unfold insert
      split
      · exact .refl _
      · exact ((ih h).cons _).trans (.swap _ _ _)

theorem length_insert_le (d : Dict α) (key : String) (v : α) :
    (d.insert key v).length ≤ d.length + 1 := by
  induction d with
  | nil => exact Nat.le_refl 1
  | cons entry rest ih =>
    unfold insert
    split
    · exact Nat.le_refl _
    · split
      · exact Nat.le_succ _
      · exact Nat.succ_le_succ ih

theorem length_extend_le (d other : Dict α) : (d.extend other).length ≤ d.length + other.length := by
  induction other generalizing d with
  | nil => exact Nat.le_refl _
  | cons entry rest ih =>
    have hinsert := length_insert_le d entry.1 entry.2
    have hrest : (d.extend (entry :: rest)).length ≤ _ := ih (d.insert entry.1 entry.2)
    rw [length_cons]
    omega

/-- The names of a dictionary are distinct and come from a list. -/
structure Drawn (d : Dict α) (names : List String) : Prop where
  nodup : d.keys.Nodup
  subset : d.keys ⊆ names

theorem Drawn.insert {names : List String} (h : d.Drawn names) (hnone : d.get? key = none)
    (hkey : key ∈ names) : (d.insert key v).Drawn names := by
  have hperm := perm_keys_insert (v := v) hnone
  refine ⟨hperm.nodup_iff.mpr (nodup_cons.mpr ⟨fun hmem => ?_, h.nodup⟩), fun k hk => ?_⟩
  · have hhas := mem_keys.mp hmem
    unfold has at hhas
    rw [hnone] at hhas
    cases hhas
  · rcases mem_cons.mp (hperm.mem_iff.mp hk) with rfl | hk
    · exact hkey
    · exact h.subset hk

theorem Drawn.erase {names : List String} (h : d.Drawn names) (key : String) :
    (d.erase key).Drawn names := by
  have hsub : (d.erase key).keys.Sublist d.keys := filter_sublist.map _
  exact ⟨h.nodup.sublist hsub, fun _ hk => h.subset (hsub.subset hk)⟩

end Dict

namespace Flow

open Forest

variable {f g : Forest} {i j p c above merged : NodeId}

theorem gatherKinds_drawn (nodes : List Coercion) :
    (gatherKinds nodes).1.Drawn ((nodes.flatMap Coercion.kinds).map Prod.fst) := by
  unfold gatherKinds
  refine foldlRecOn (motive := fun state : Dict String × List String => state.1.Drawn _) _ _
    ⟨nodup_nil, nil_subset _⟩ fun state h entry hentry => ?_
  dsimp only
  split
  · rename_i hnone
    exact h.insert hnone (mem_map_of_mem hentry)
  · exact h

theorem sharedKinds_drawn (nodes : List Coercion) :
    (sharedKinds nodes).value.Drawn ((nodes.flatMap Coercion.kinds).map Prod.fst) := by
  unfold sharedKinds
  refine foldlRecOn (motive := fun acc : Logged (Dict String) => acc.value.Drawn _) _ _
    (gatherKinds_drawn nodes) fun acc h field _ => ?_
  split
  · exact h.erase field
  · exact h

theorem length_sharedKinds_le (nodes : List Coercion) : (sharedKinds nodes).value.length ≤
    ((nodes.flatMap Coercion.kinds).filter fun entry =>
      (sharedKinds nodes).value.has entry.1).length := by
  have hdrawn := sharedKinds_drawn nodes
  generalize (sharedKinds nodes).value = common at hdrawn
  have hsub : common.keys ⊆ (((nodes.flatMap Coercion.kinds).filter fun entry =>
      common.has entry.1).map Prod.fst) := fun key hkey => by
    obtain ⟨entry, hentry, rfl⟩ := mem_map.mp (hdrawn.subset hkey)
    exact mem_map_of_mem (mem_filter.mpr ⟨hentry, Dict.mem_keys.mp hkey⟩)
  have hle := (hdrawn.nodup.subperm hsub).length_le
  unfold Dict.keys at hle
  rwa [length_map, length_map] at hle

/-! ### Nodes that a shared coercion relieves -/

def Node.relief (common : Dict String) : Node → Nat
  | .parse c => (c.kinds.filter fun entry => common.has entry.1).length
  | _ => 0

theorem Node.weight_relieved (common : Dict String) (n : Node) :
    (n.relieved common).elim 0 Node.weight + n.relief common ≤ n.weight := by
  cases n with
  | parse c =>
    have hsplit := length_eq_length_filter_add (l := c.kinds) fun entry => common.has entry.1
    simp only [relieved, relief]
    split
    · simp only [Option.elim, weight]
      omega
    · rename_i hrest
      have hpos := length_pos_iff.mpr (mt isEmpty_iff.mpr hrest)
      simp only [Option.elim, weight]
      omega
  | _ => exact Nat.le_refl _

theorem node?_foldl_moveBelow (merged : NodeId) (common : Dict String) {nodes : List NodeId}
    (hnodup : nodes.Nodup) (f : Forest) (j : NodeId) :
    (nodes.foldl (moveBelow merged common) f).node? j =
      if j ∈ nodes then (f.node? j).bind (Node.relieved common) else f.node? j := by
  induction nodes generalizing f with
  | nil => rfl
  | cons c rest ih =>
    obtain ⟨hc, hrest⟩ := nodup_cons.mp hnodup
    rw [foldl_cons, ih hrest, node?_moveBelow]
    by_cases hj : j = c
    · simp [hj, hc]
    · simp [hj]

theorem length_shared_le_relief (f : Forest) (nodes : List NodeId) (common : Dict String)
    (hcommon : (sharedKinds (nodes.filterMap fun c => (f.node? c).bind Node.parse?)).value = common) :
    common.length ≤ (nodes.map (f.share fun _ n => n.relief common)).sum := by
  have hle := length_sharedKinds_le (nodes.filterMap fun c => (f.node? c).bind Node.parse?)
  rw [hcommon] at hle
  refine hle.trans (Nat.le_of_eq ?_)
  clear hle hcommon
  induction nodes with
  | nil => rfl
  | cons c rest ih =>
    rw [map_cons, sum_cons, ← ih]
    cases hn : f.node? c with
    | none =>
      rw [share_of_vacant hn, filterMap_cons_none (by rw [hn]; rfl), Nat.zero_add]
    | some n =>
      rw [share_of_node? hn]
      cases n with
      | parse k =>
        rw [filterMap_cons_some (b := k) (by rw [hn]; rfl), flatMap_cons,
          filter_append, length_append]
        rfl
      | _ =>
        rw [filterMap_cons_none (by rw [hn]; rfl)]
        exact (Nat.zero_add _).symm

/-! ### Siblings that go below a shared coercion -/

/-- All siblings move, one after the other; those that go are moved by then. -/
theorem Forest.ValidBut.foldl_moveBelow (hf : f.Valid) (common : Dict String) {nodes : List NodeId}
    (hnodes : ∀ c ∈ nodes, f.parent? c = some above) (hmerged : f.parent? merged = some above)
    (hnodup : (merged :: nodes).Nodup) :
    (nodes.foldl (Flow.moveBelow merged common) f).Valid ∧
      ∀ j, (nodes.foldl (Flow.moveBelow merged common) f).contains j →
        (nodes.foldl (Flow.moveBelow merged common) f).parent? j =
          if j ∈ nodes ∨ ∃ c ∈ nodes, f.parent? j = some c ∧
            (nodes.foldl (Flow.moveBelow merged common) f).contains c = false
          then some merged else f.parent? j := by
  induction nodes generalizing f with
  | nil => exact ⟨hf, fun j _ => by simp⟩
  | cons c rest ih =>
    obtain ⟨hm, hnodup⟩ := nodup_cons.mp hnodup
    obtain ⟨hc, hrest⟩ := nodup_cons.mp hnodup
    obtain ⟨hne, hmrest⟩ := not_or.mp (mt mem_cons.mpr hm)
    have hca := hnodes c mem_cons_self
    obtain ⟨hvalid, hparent⟩ := hf.moveBelow common hca hmerged (Ne.symm hne)
    have hkeeps : ∀ {j}, j ≠ c → f.parent? j = some above → _ :=
      hf.parent?_moveBelow common hca hmerged (Ne.symm hne)
    obtain ⟨hvalid', hparent'⟩ := ih hvalid
      (fun d hd => hkeeps (fun he => hc (he ▸ hd)) (hnodes d (mem_cons_of_mem c hd)))
      (hkeeps hne hmerged) (nodup_cons.mpr ⟨hmrest, hrest⟩)
    have hnode := node?_foldl_moveBelow merged common hrest (Flow.moveBelow merged common f c)
    rw [foldl_cons]
    generalize rest.foldl _ _ = g at hvalid' hparent' hnode ⊢
    have hgone : g.contains c = (Flow.moveBelow merged common f c).contains c := by
      rw [contains, hnode, if_neg hc, Forest.contains]
    refine ⟨hvalid', fun j hj => ?_⟩
    have hlive : (Flow.moveBelow merged common f c).contains j := by
      rw [Forest.contains, hnode] at hj
      split at hj
      · exact Option.isSome_of_isSome_bind hj
      · exact hj
    rw [hparent' j hj, hparent j hlive, ← hgone]
    simp only [mem_cons, exists_eq_or_imp]
    by_cases hmoved : j = c ∨ f.parent? j = some c ∧ g.contains c = false
    · rw [if_pos hmoved, ite_self, if_pos (hmoved.imp .inl .inl)]
    · rw [if_neg hmoved]
      obtain ⟨hjc, hstay⟩ := not_or.mp hmoved
      simp [hjc, hstay]

/-- What a coercion that does part of the work of siblings makes of a forest: it is new, it stands
between them and their parent, and takes over the children of those that have nothing left. -/
structure Hoists (f g : Forest) (above merged : NodeId) (common : Dict String) : Prop where
  linked : f.Linked
  valid : g.Valid
  fresh : f.contains merged = false
  node : ∀ j, g.node? j = if j = merged then some (.parse ⟨common⟩)
    else if f.parent? j = some above then (f.node? j).bind (Node.relieved common) else f.node? j
  parent_merged : g.parent? merged = some above
  parent : ∀ {j}, j ≠ merged → g.contains j → g.parent? j =
    if f.parent? j = some above ∨
      ∃ c ∈ f.children above, f.parent? j = some c ∧ g.contains c = false
    then some merged else f.parent? j

theorem Forest.ValidBut.hoists (hf : f.Valid) (habove : f.contains above) (common : Dict String) :
    Hoists f ((f.children above).foldl (Flow.moveBelow (f.add (.parse ⟨common⟩) (some above)).2 common)
      (f.add (.parse ⟨common⟩) (some above)).1) above (f.add (.parse ⟨common⟩) (some above)).2 common := by
  have hfresh : f.contains (f.add (.parse ⟨common⟩) (some above)).2 = false := hf.arena.fresh_store _
  have hvalid : (f.add (.parse ⟨common⟩) (some above)).1.Valid := hf.add _ fun p hp => by
    cases hp
    exact habove
  have hparent := hf.parent?_add (.parse ⟨common⟩) above
  have hnode := hf.arena.node?_add (.parse ⟨common⟩) (some above)
  generalize f.add (.parse ⟨common⟩) (some above) = new at hfresh hvalid hparent hnode
  have hnew : new.2 ∉ f.children above := fun hmem => by
    rw [(hf.live hmem).2] at hfresh
    cases hfresh
  have hself : above ∉ f.children above := fun hmem =>
    hf.ne_parent (hf.parent?_of_mem hmem) rfl
  have hplace : new.1.parent? new.2 = some above := by rw [hparent, if_pos rfl]
  have hnodes := node?_foldl_moveBelow new.2 common (hf.single.nodup_children above) new.1
  obtain ⟨hvalid', hparent'⟩ := hvalid.foldl_moveBelow common
    (fun c (hc : c ∈ f.children above) => by
      have hne : c ≠ new.2 := fun he => hnew (he ▸ hc)
      rw [hparent, if_neg hne, hf.parent?_of_mem hc]) hplace
    (nodup_cons.mpr ⟨hnew, hf.single.nodup_children above⟩)
  refine ⟨hf.toLinked, hvalid', hfresh, fun j => ?_, ?_, fun {j} hne hj => ?_⟩
  · rw [hnodes, hnode]
    simp only [hf.single.parent?_eq_some]
    by_cases hj : j = new.2
    · rw [if_pos hj, if_pos hj, if_neg (hj ▸ hnew)]
    · rw [if_neg hj, if_neg hj]
  · rw [hparent' _ (by simp [Forest.contains, hnodes, hnode, hnew]), hplace, if_neg]
    rintro (hmem | ⟨c, hc, he, -⟩)
    · exact hnew hmem
    · cases he
      exact hself hc
  · rw [hparent' j hj, hparent, if_neg hne]
    simp only [hf.single.parent?_eq_some]

section

variable {common : Dict String} (h : Hoists f g above merged common)

include h

theorem Hoists.contains_of_parent? (hj : f.contains j) (hp : f.parent? j ≠ some above) :
    g.contains j := by
  have hjm : j ≠ merged := fun he => by simp [he, h.fresh] at hj
  rwa [Forest.contains, h.node, if_neg hjm, if_neg hp]

/-- What was below a node that is still there is still below it, and children of the fork went below the
shared coercion. -/
theorem Hoists.below {a b : NodeId} (ha : g.contains a) (hb : f.Below a b) :
    (g.contains b → g.Below a b) ∧ (f.parent? b = some above → a ≠ b → g.Below a merged) := by
  have hf := h.linked
  have hg := h.valid.toLinked
  induction hb with
  | refl => exact ⟨fun _ => .refl g a, fun _ hne => absurd rfl hne⟩
  | @tail y z _ hz ih =>
    have hyz := hf.parent?_of_mem hz
    have hmerged : f.parent? z = some above → g.Below a merged := fun hza => by
      cases hyz.symm.trans hza
      refine (ih.1 (h.contains_of_parent? (hf.live hz).1 fun he => hf.ne_parent he rfl)).step ?_
      exact hg.child h.parent_merged
    refine ⟨fun hlive => ?_, fun hza _ => hmerged hza⟩
    have hzm : z ≠ merged := fun he => by simpa [he, h.fresh] using (hf.live hz).2
    have hparent := h.parent hzm hlive
    split at hparent
    · rename_i hmoved
      refine Below.step ?_ (hg.child hparent)
      rcases hmoved with hza | ⟨c, hc, hzc, hgone⟩
      · exact hmerged hza
      · cases hyz.symm.trans hzc
        exact ih.2 (hf.parent?_of_mem hc) fun he => by simp [← he, ha] at hgone
    · rw [hyz] at hparent
      exact (ih.1 (hg.live_of_parent? hparent).1).step (hg.child hparent)

theorem Hoists.below_merged {x : NodeId} (hc : f.parent? c = some above) (hb : f.Below c x)
    (hx : g.contains x) : g.Below merged x := by
  have hf := h.linked
  have hg := h.valid.toLinked
  have hmoves : ∀ {j}, f.contains j → g.contains j → (f.parent? j = some above ∨
      ∃ c ∈ f.children above, f.parent? j = some c ∧ g.contains c = false) → g.Below merged j :=
    fun hj hlive hmoved => by
      have hparent := h.parent (fun he => by simp [he, h.fresh] at hj) hlive
      rw [if_pos hmoved] at hparent
      exact (Below.refl g merged).step (hg.child hparent)
  by_cases hlive : g.contains c
  · exact (hmoves (hf.live_of_parent? hc).2 hlive (.inl hc)).trans ((h.below hlive hb).1 hx)
  · rcases below_iff.mp hb with rfl | ⟨d, hd, hdx⟩
    · exact absurd hx hlive
    · have hdc := hf.parent?_of_mem hd
      have hdlive : g.contains d := h.contains_of_parent? (hf.live hd).2 fun he => by
        cases hdc.symm.trans he
        exact hf.ne_parent hc rfl
      exact (hmoves (hf.live hd).2 hdlive (.inr ⟨c, hf.child hc, hdc, by simpa using hlive⟩)).trans
        ((h.below hdlive hdx).1 hx)

theorem Hoists.drains (hne : common ≠ []) (hrelief : common.length ≤
    ((f.children above).map (f.share fun _ n => n.relief common)).sum) :
    Drains f g merged (f.children above) := by
  have hf := h.linked
  have hnew : merged ∉ f.children above := fun hmem => by
    simpa [h.fresh] using (hf.live hmem).2
  have hmerged : g.node? merged = some (.parse ⟨common⟩) := by rw [h.node, if_pos rfl]
  have hchild : ∀ c ∈ f.children above,
      g.mass c + f.share (fun _ n => n.relief common) c ≤ f.mass c := fun c hc => by
    obtain ⟨n, hn⟩ := exists_node (hf.live hc).2
    have hgc : g.node? c = n.relieved common := by
      rw [h.node, if_neg (ne_of_mem_of_not_mem hc hnew), if_pos (hf.parent?_of_mem hc), hn, Option.bind_some]
    rw [mass_of_node? hn, share_of_node? hn, mass, share, hgc]
    exact n.weight_relieved common
  refine ⟨nodup_cons.mpr ⟨hnew, hf.single.nodup_children above⟩, fun {j} hj => ?_,
    fun hc => (Nat.le_add_right _ _).trans (hchild _ hc), ?_, contains_of_node? hmerged,
    fun hx hy hxy => hxy.imp (fun hxy => (h.below hx hxy).1 hy) fun hyx => (h.below hy hyx).1 hx,
    fun {x c} hc hx hxc => ?_⟩
  · rw [mem_cons, not_or] at hj
    rw [h.node, if_neg hj.1, if_neg (mt hf.child hj.2)]
  · -- What the siblings lose is at least what the new node weighs.
    have hsum := sum_le_sum hchild
    have hweight : g.mass merged = common.length :=
      (mass_of_node? hmerged).trans (Nat.max_eq_right (length_pos_iff.mpr hne))
    rw [sum_map_add] at hsum
    omega
  · have hca := hf.parent?_of_mem hc
    rcases hxc with hxc | hcx
    · by_cases hxe : x = c
      · exact .inr (h.below_merged hca (hxe ▸ .refl f x) hx)
      · exact .inl ((h.below hx hxc).2 hca hxe)
    · exact .inr (h.below_merged hca hcx hx)

end

theorem Forest.Single.exists_sibling (hf : f.Single) (hmany : 1 < (f.children above).length)
    (c : NodeId) : ∃ d ∈ f.children above, d ≠ c := by
  by_contra hall
  push Not at hall
  have hsub : f.children above ⊆ [c] := fun d hd => mem_singleton.mpr (hall d hd)
  exact absurd ((hf.nodup_children above).subperm hsub).length_le (by simpa using hmany)

theorem Forest.Planted.rank_hoist_lt (hf : f.Planted) (hmany : 1 < (f.children above).length)
    {common : Dict String} (hcommon : (sharedKinds ((f.children above).filterMap fun c =>
      (f.node? c).bind Node.parse?)).value = common) (hne : common ≠ []) :
    ((f.children above).foldl (moveBelow (f.add (.parse ⟨common⟩) (some above)).2 common)
      (f.add (.parse ⟨common⟩) (some above)).1).rank < f.rank := by
  obtain ⟨first, hfirst⟩ := exists_mem_of_length_pos (Nat.lt_of_succ_lt hmany)
  have hhoists := hf.toValidBut.hoists (hf.live hfirst).1 common
  have hdrains := hhoists.drains hne (length_shared_le_relief f (f.children above) common hcommon)
  have hfresh : f.mass (f.add (.parse ⟨common⟩) (some above)).2 = 0 :=
    mass_eq_zero (by simp [hhoists.fresh])
  have hnew := mass_pos hdrains.live
  refine rank_lt_of_spread hdrains.bulk_le (hdrains.spread_add_le (k := 1) (.inr (hfresh ▸ hnew))
    fun c hc => ?_)
  obtain ⟨d, hd, hdc⟩ := hf.single.exists_sibling hmany c
  -- The other child was apart from this one, and is not apart from the new node.
  refine total_lt (i := d) ?_ fun j _ => ?_ <;> rw [share_apart, share_apart]
  · refine (hdrains.apart_target_le (.inr hd) d).trans_lt ?_
    rw [apart_eq_zero (.inl (.refl f d)), apart_eq_mass (not_or.mpr ⟨?_, ?_⟩)]
    · exact mass_pos (hf.live hd).2
    · exact hf.not_below_sibling (hf.parent?_of_mem hd) (hf.parent?_of_mem hc) hdc
    · exact hf.not_below_sibling (hf.parent?_of_mem hc) (hf.parent?_of_mem hd) hdc.symm
  · exact hdrains.apart_target_le (.inr hc) j

/-! ### Outputs in a chain -/

theorem Forest.Linked.below_antisymm {a b : NodeId} (hf : f.Linked) (hab : f.Below a b)
    (hba : f.Below b a) : a = b := by
  rcases hab.cases_parent hf.single with he | ⟨p, hp, hap⟩
  · exact he
  · exact absurd (hba.trans hap) (hf.not_below_of_child (hf.child hp))

/-- A node that moves down along a way keeps what is above it and comes into line with the end. -/
theorem Chaining.rank_lt (h : Chaining f g) (hf : f.Planted) : g.rank < f.rank := by
  obtain @⟨i, p, above, before, hp, -, -, hbelow, hne, hnot, hout⟩ := h
  have hlive := contains_of_holds hout
  have hmoved := hf.moved hp hlive hnot
  have hbi : (f.setParent i before).Below before i :=
    (Below.refl _ before).step (hmoved.linked'.child hmoved.parent_self)
  have hkeeps : ∀ a b, f.Below a b → (f.setParent i before).Below a b := fun a b hab => by
    by_cases hib : f.Below i b
    · by_cases hia : f.Below i a
      · exact hmoved.below (.inr hia) hab
      · have hai := (hf.below_total hab hib).resolve_right hia
        have haq := hf.below_parent hai (fun he => hia (he ▸ .refl f a)) hp
        exact ((hmoved.below (.inl hnot) (haq.trans hbelow)).trans hbi).trans
          (hmoved.below (.inr (.refl f i)) hib)
    · exact hmoved.below (.inl hib) hab
  refine rank_lt_of_spread (bulk_le_of_node? hmoved.node) (spread_lt_of_below hmoved.node
    (fun a b hab => .inl (hkeeps a b hab)) (hf.live_of_parent? hp).2 hlive (not_or.mpr ⟨hnot, ?_⟩)
    (.inr hbi))
  intro hb
  have hbq := hf.below_parent hb (fun he => hnot (he ▸ .refl f _)) hp
  exact hne (hf.below_antisymm hbelow hbq)

end Flow

end ChartPlan
