import ChartPlan.Proofs.Flow.Pass.Lifting
import ChartPlan.Proofs.Flow.Pass.Sinking

/-!
# Bins that are mixed up

When bins are merged, binnings with one key become one, and binnings with other keys stand side by side,
whatever names they write. So a name is computed as before only when no other binning of the tree has
the key or writes the name, and computes something else.

* `Binning.Rivals`: what may be mixed up with a binning.
* `Upheld`: a name of a binning without rivals is computed above a node; `Upheld.step` says that every
  move of bins keeps it so.
-/

namespace ChartPlan.Flow

open Forest List

variable {ok : Bins → Node → Prop} {f g : Forest} {c i j r : NodeId} {a b : Bins} {x y : Binning}
  {key : String} {pair : String × String}

/-- A binning that may be mixed up with another one, which computes something else: it has the same key,
or it writes a name of the other one. -/
structure Binning.Rivals (y x : Binning) : Prop where
  differs : ¬ x.Alike y
  mixes : x.key = y.key ∨ ∃ pair ∈ x.outputs, pair.1 ∈ y.produced ∨ pair.2 ∈ y.produced

/-- Bins that stand under their keys, none of which is a rival. -/
def Bins.Free (b : Bins) (x : Binning) : Prop :=
  ∀ entry ∈ b.bins, entry.1 = entry.2.key ∧ ¬ entry.2.Rivals x

theorem Bins.Free.alike_of_merge (ha : a.Free x) (hb : b.Free x) (signals : Renames)
    (hy : (key, y) ∈ (a.merge b signals).1.bins) (hkey : key = x.key) : x.Alike y := by
  obtain ⟨z, hz, hzy⟩ := (a.gathers_merge b signals).alike hy
  obtain ⟨hzkey, hfree⟩ := hz.elim (ha _) (hb _)
  refine Binning.Alike.trans ?_ hzy
  by_contra hdiffers
  exact hfree ⟨hdiffers, .inl (hkey.symm.trans hzkey)⟩

theorem Bins.Free.merge (ha : a.Free x) (hb : b.Free x) (signals : Renames) :
    (a.merge b signals).1.Free x := by
  rintro ⟨key, y⟩ hy
  have hgathers := a.gathers_merge b signals
  obtain ⟨z, hz, hzy⟩ := hgathers.alike hy
  have hkey : key = y.key := ((hz.elim (ha _) (hb _)).1).trans hzy.key
  refine ⟨hkey, fun hrivals => hrivals.differs (ha.alike_of_merge hb signals hy ?_)⟩
  rcases hrivals.mixes with hx | ⟨pair, hpair, hname⟩
  · exact hkey.trans hx.symm
  · -- Whatever wrote the name computes the same, and so it has the key.
    have hwriter : ∃ z, ((key, z) ∈ a.bins ∨ (key, z) ∈ b.bins) ∧
        (pair.1 ∈ z.produced ∨ pair.2 ∈ z.produced) := by
      rcases hname with hname | hname <;> obtain ⟨z, hz, hname⟩ := hgathers.names hy hname
      · exact ⟨z, hz, .inl hname⟩
      · exact ⟨z, hz, .inr hname⟩
    obtain ⟨z, hz, hname⟩ := hwriter
    obtain ⟨hzkey, hfree⟩ := hz.elim (ha _) (hb _)
    by_contra hne
    refine hfree ⟨fun halike => hne (hzkey.trans halike.key.symm), .inr ⟨pair, hpair, hname⟩⟩

theorem Joined.below {keep other : NodeId} {merged : Node} (h : Joined f g keep other merged)
    (hf : f.Linked) (hne : keep ≠ other) (hnear : f.Near keep other) (hb : f.Below i j) :
    g.Below (if i = other then keep else i) (if j = other then keep else j) := by
  induction hb with
  | refl => exact .refl g _
  | @tail y z _ hz ih =>
    have hp : f.parent? z = some y := hf.parent?_of_mem hz
    by_cases hzo : z = other
    · -- The parent of the one that went is the other one, or it is the parent of both.
      subst hzo
      rw [if_pos rfl]
      rcases hnear with hkeep | ⟨p, hk, ho⟩
      · cases hp.symm.trans hkeep
        rwa [if_neg hne] at ih
      · cases hp.symm.trans ho
        rw [if_neg (hf.ne_parent hp).symm] at ih
        refine ih.trans (h.linked.below_of_parent? ?_)
        rw [h.parent, if_neg hne, hk, if_neg (by simpa using (hf.ne_parent ho).symm)]
    · rw [if_neg hzo]
      refine ih.trans (h.linked.below_of_parent? ?_)
      rw [h.parent, if_neg hzo, hp]
      by_cases hyo : y = other <;> simp [hyo]

/-- A name of a binning is computed above a node that is still there, in a tree without rivals. -/
structure Upheld (r c : NodeId) (x : Binning) (pair : String × String) (f : Forest) : Prop where
  top : f.parent? r = none
  plain : f.holds r Node.isBin = false
  free : ∀ {j b}, f.Below r j → f.node? j = some (.bin b) → b.Free x
  written : f.contains c → ∃ i b key y, f.Below r i ∧ f.Over i c ∧ f.node? i = some (.bin b) ∧
    (key, y) ∈ b.bins ∧ x.Alike y ∧ pair ∈ y.outputs

theorem Upheld.ne_bin (h : Upheld r c x pair f) (hi : f.node? i = some (.bin b)) : r ≠ i := by
  rintro rfl
  have hplain := h.plain
  rw [holds_of_node? hi] at hplain
  cases hplain

theorem Upheld.join {keep other : NodeId} (h : Upheld r c x pair f) (hf : f.Linked)
    (hk : f.node? keep = some (.bin a)) (ho : f.node? other = some (.bin b)) (hne : keep ≠ other)
    (hnear : f.Near keep other) :
    Upheld r c x pair (mergeBinInto keep f other) := by
  have hnot := hf.not_below_of_near hne hnear
  have hj := hf.joined hk ho hnot
  have hrk := h.ne_bin hk
  have hro := h.ne_bin ho
  have hmerged (hb : f.Below r keep) : (a.merge b f.signals).1.Free x :=
    (h.free hb hk).merge (h.free (hf.below_of_near hrk hb hnear) ho) f.signals
  refine ⟨?_, ?_, fun {j m} hb hm => ?_, fun hc => ?_⟩
  · rw [hj.parent, if_neg hro, h.top, if_neg (by simp)]
  · have hplain := h.plain
    unfold holds at hplain ⊢
    rwa [hj.node_of_ne hrk hro]
  · have hb := hj.below_of_ne hf hrk hnear hb
    rw [hj.node] at hm
    split at hm
    · cases hm
    · split at hm
      · rename_i hjk
        cases hm
        exact hmerged (hjk ▸ hb)
      · exact h.free hb hm
  · obtain ⟨hco, hc⟩ := hj.contains_of_contains (contains_of_node? hk) hc
    obtain ⟨i, m, key, y, hri, hic, hm, hy, halike, hpair⟩ := h.written hc
    have hri' := hj.below hf hne hnear hri
    have hic' := hj.below hf hne hnear hic.1
    rw [if_neg hro] at hri'
    rw [if_neg hco] at hic'
    by_cases hmoved : i = other ∨ i = keep
    · -- The bin has become part of the one that stays.
      have hkeep : (if i = other then keep else i) = keep := by
        rcases hmoved with rfl | rfl <;> simp
      rw [hkeep] at hri' hic'
      have hrk' : f.Below r keep := hj.below_of_ne hf hrk hnear hri'
      have hmem : (key, y) ∈ a.bins ∨ (key, y) ∈ b.bins := by
        rcases hmoved with rfl | rfl
        · cases ho.symm.trans hm
          exact .inr hy
        · cases hk.symm.trans hm
          exact .inl hy
      obtain ⟨z, hz, hsub⟩ := (a.gathers_merge b f.signals).holds hmem
      have hkey : key = x.key := ((h.free hri hm _ hy).1).trans halike.key.symm
      refine ⟨keep, _, key, z, hri', ⟨hic', ?_⟩, hj.node_keep hne, hz, ?_, hsub hpair⟩
      · rintro rfl
        rcases hmoved with rfl | rfl
        · exact hnot hic.1
        · exact hic.2 rfl
      · exact (h.free hrk' hk).alike_of_merge (h.free (hf.below_of_near hrk hrk' hnear) ho) f.signals hz hkey
    · obtain ⟨hio, hik⟩ := not_or.mp hmoved
      rw [if_neg hio] at hri' hic'
      exact ⟨i, m, key, y, hri', ⟨hic', hic.2⟩, (hj.node_of_ne hik hio).trans hm, hy, halike, hpair⟩

theorem Upheld.lift {above grand : NodeId} {n : Node} (h : Upheld r c x pair f) (hf : f.Linked)
    (hi : f.node? i = some (.bin b)) (hp : f.parent? i = some above) (hn : f.node? above = some n)
    (hg : f.parent? above = some grand) (hbin : n.isBin = false) :
    Upheld r c x pair (f.exchange i).2 := by
  have hnode := node?_of_contents (hf.contents_exchange hp hg)
  have hri := h.ne_bin hi
  have hra : r ≠ above := fun he => by
    have htop := h.top
    rw [he, hg] at htop
    cases htop
  refine ⟨?_, ?_, fun hb hm => ?_, fun hc => ?_⟩
  · rw [(hf.exchange hp hg).2, if_neg hra, if_neg hri, h.top, if_neg (by simp)]
  · have hplain := h.plain
    unfold holds at hplain ⊢
    rwa [hnode]
  · rw [hnode] at hm
    exact h.free (hf.below_of_exchange_ne hp hg hri hb) hm
  · rw [Forest.contains, hnode] at hc
    obtain ⟨k, m, key, y, hrk, hkc, hm, hy⟩ := h.written hc
    refine ⟨k, m, key, y, ?_, ⟨?_, hkc.2⟩, (hnode k).trans hm, hy⟩
    · exact (hf.below_exchange hp hg hrk).resolve_right fun he => hra he.1
    · -- A bin is not the node that another one passes.
      refine (hf.below_exchange hp hg hkc.1).resolve_right fun he => ?_
      rw [he.1, hn] at hm
      cases hm
      cases hbin

theorem Upheld.step (h : Upheld r c x pair f) (hf : f.Linked) (hmove : BinMove ok f g) :
    Upheld r c x pair g := by
  cases hmove with
  | join hk ho hne hnear => exact h.join hf hk ho hne hnear
  | lift hi hp hn hg hbin _ => exact h.lift hf hi hp hn hg hbin

theorem BinMoves.upheld (hmoves : BinMoves ok f g) (hf : f.Linked) (h : Upheld r c x pair f) :
    Upheld r c x pair g := by
  induction hmoves with
  | refl => exact h
  | tail hsofar hmove ih => exact ih.step (BinMoves.linked hsofar hf) hmove

theorem BinMoves.node?_of_isBin_eq_false {n : Node} (hmoves : BinMoves ok f g) (hf : f.Linked)
    (hn : f.node? j = some n) (hbin : n.isBin = false) : g.node? j = some n := by
  induction hmoves with
  | refl => exact hn
  | @tail g h hsofar hmove ih =>
    have hg := BinMoves.linked hsofar hf
    cases hmove with
    | join hk ho hne hnear =>
      have hother : ∀ {i b}, g.node? i = some (.bin b) → j ≠ i := fun hi he => by
        rw [← he, ih] at hi
        cases hi
        cases hbin
      exact ((hg.joined hk ho (hg.not_below_of_near hne hnear)).node_of_ne (hother hk) (hother ho)).trans ih
    | lift _ hp _ hgrand _ _ => exact (node?_of_contents (hg.contents_exchange hp hgrand) j).trans ih

/-- Take a binning of a bin in a forest that passes the check, and the node at the top of the tree. If
no binning of the tree is a rival, then after the pass every former child of the bin is below a bin where
each pair of names of the binning is written by a binning of the same field with the same parameters, and
neither name is written by any other one. A former child that is not there any more was a bin itself. The
pass succeeds when the roots are the data sources. -/
theorem mergeBins_keeps_binnings {f : Forest} (hgraph : f.Graph) (hcheck : f.check = .ok ())
    (hroots : ∀ i ∈ f.sources, f.contains i)
    (hkeyed : ∀ i b, f.node? i = some (.bin b) → ∀ entry ∈ b.bins, entry.1 = entry.2.key) :
    (∀ r i b x, f.parent? r = none → f.holds r Node.isBin = false → f.Below r i →
      f.node? i = some (.bin b) → x ∈ b.bins.values →
      (∀ j b y, f.Below r j → f.node? j = some (.bin b) → y ∈ b.bins.values → ¬ y.Rivals x) →
      ∀ c, f.parent? c = some i →
        f.holds c Node.isBin ∧ (mergeBins f).left.contains c = false ∨
        ∀ pair ∈ x.outputs, ∃ a m, (mergeBins f).left.node? a = some (.bin m) ∧
          (mergeBins f).left.Over a c ∧ (∃ y ∈ m.bins.values, x.Alike y ∧ pair ∈ y.outputs) ∧
          ∀ y ∈ m.bins.values, pair.1 ∈ y.produced ∨ pair.2 ∈ y.produced → x.Alike y) ∧
      ((∀ i, i ∈ f.sources ↔ f.holds i Node.isDataSource) → ∃ q, mergeBins f = .ok q) := by
  have hf : f.Linked := ((hgraph.check_eq_ok_iff hroots).mp hcheck).toLinked
  have hmoves := mergeBins_moves hf
  refine ⟨fun r i b x htop hplain hri hi hx hfree c hc => ?_, mergeBins_succeeds hgraph hcheck⟩
  cases hlive : (mergeBins f).left.contains c with
  | false =>
    obtain ⟨n, hn⟩ := exists_node (hf.live_of_parent? hc).2
    refine .inl ⟨?_, rfl⟩
    rw [holds_of_node? hn]
    by_contra hbin
    rw [Forest.contains, hmoves.node?_of_isBin_eq_false hf hn (Bool.not_eq_true _ ▸ hbin)] at hlive
    cases hlive
  | true =>
    refine .inr fun pair hpair => ?_
    obtain ⟨entry, hentry, rfl⟩ := mem_map.mp hx
    have hupheld : Upheld r c entry.2 pair f :=
      ⟨htop, hplain, fun hj hm e he => ⟨hkeyed _ _ hm e he, hfree _ _ _ hj hm (mem_map_of_mem he)⟩,
        fun _ => ⟨i, b, entry.1, entry.2, hri, hf.over_of_parent? hc, hi, hentry, ⟨rfl, rfl⟩, hpair⟩⟩
    have hend := hmoves.upheld hf hupheld
    obtain ⟨a, m, key, y, hra, hover, hm, hy, halike, hwritten⟩ := hend.written hlive
    refine ⟨a, m, hm, hover, ⟨y, mem_map_of_mem hy, halike, hwritten⟩, fun z hz hname => ?_⟩
    obtain ⟨other, hother, rfl⟩ := mem_map.mp hz
    by_contra hdiffers
    exact (hend.free hra hm other hother).2 ⟨hdiffers, .inr ⟨pair, hpair, hname⟩⟩

def binnedApart (x y : Binning) : Forest where
  slots := [some (.source .empty), some (.bin (.add {} x)), some (.output (.fresh "bars" .main 0)),
    some (.bin (.add {} y)), some (.output (.fresh "labels" .main 0))]
  edges := [⟨3, 4, 0⟩, ⟨1, 2, 0⟩, ⟨0, 3, 1⟩, ⟨0, 1, 0⟩]
  sources := [0]
  outputs := [("bars", 2), ("labels", 4)]
  requests := [("bars", 1), ("labels", 1)]

theorem mem_binnedApart (hi : (binnedApart x y).node? i = some (.bin b)) :
    b.bins = [(x.key, x)] ∨ b.bins = [(y.key, y)] := by
  rw [node?, Option.join_eq_some_iff] at hi
  have hmem := mem_of_getElem? hi
  simp only [binnedApart, mem_cons, Option.some.injEq, reduceCtorEq, Node.bin.injEq, not_mem_nil,
    or_false, false_or] at hmem
  rcases hmem with rfl | rfl
  · exact .inl rfl
  · exact .inr rfl

def sizesIn (most : Nat) (output : String × String) : Binning :=
  .fresh [("maxbins", .nat most)] "size" output ""

def binnedAlike : Forest :=
  binnedApart (sizesIn 10 ("start", "stop")) (sizesIn 10 ("low", "high"))

theorem binnedAlike_alike (hi : binnedAlike.node? i = some (.bin b)) : ∀ entry ∈ b.bins,
    entry.1 = entry.2.key ∧ (sizesIn 10 ("low", "high")).Alike entry.2 := by
  intro entry hentry
  rcases mem_binnedApart hi with hb | hb <;> rw [hb] at hentry <;>
    obtain rfl := mem_singleton.mp hentry <;> exact ⟨rfl, rfl, rfl⟩

theorem mergeBins_binnedAlike :
    (mergeBins binnedAlike).toOption.map (fun q => [2, 4].map q.forest.path) = some [[0, 1, 2], [0, 1, 4]] ∧
    ∀ pair ∈ [("low", "high")], ∃ a m, (mergeBins binnedAlike).left.node? a = some (.bin m) ∧
      (mergeBins binnedAlike).left.Over a 4 ∧
      (∃ y ∈ m.bins.values, (sizesIn 10 ("low", "high")).Alike y ∧ pair ∈ y.outputs) ∧
      ∀ y ∈ m.bins.values, pair.1 ∈ y.produced ∨ pair.2 ∈ y.produced →
        (sizesIn 10 ("low", "high")).Alike y := by
  refine ⟨by decide +kernel, Or.resolve_left ((mergeBins_keeps_binnings (f := binnedAlike)
    ⟨⟨by decide, by decide⟩, by decide⟩ rfl (by decide) fun i b hi entry hentry =>
      (binnedAlike_alike hi entry hentry).1).1 0 3 _ (sizesIn 10 ("low", "high")) rfl rfl
        ((Below.refl _ 0).step (by decide)) rfl (mem_singleton.mpr rfl) (fun j b y _ hj hy => ?_) 4 rfl)
    fun hgone => by cases hgone.1⟩
  obtain ⟨entry, hentry, rfl⟩ := mem_map.mp hy
  exact fun hrivals => hrivals.differs (binnedAlike_alike hj entry hentry).2

/-- Bins of different sizes with the same names are both written under these names. -/
theorem mergeBins_mixes_binnings :
    ∃ q m, mergeBins (binnedApart (sizesIn 10 ("start", "stop")) (sizesIn 20 ("start", "stop"))) = .ok q ∧
      q.forest.path 4 = [0, 1, 4] ∧ q.forest.node? 1 = some (.bin m) ∧
      m.bins.values.map (fun y => (y.params, y.outputs)) =
        [([("maxbins", .nat 10)], [("start", "stop")]), ([("maxbins", .nat 20)], [("start", "stop")])] :=
  ⟨_, _, rfl, by decide +kernel, rfl, rfl⟩

end ChartPlan.Flow
