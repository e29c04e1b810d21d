import ChartPlan.Proofs.Flow.History
import ChartPlan.Proofs.Flow.Pass.Facets
import ChartPlan.Proofs.View.Shape
import ChartPlan.Proofs.View.Steps

/-!
# The dataflow of views is planted

The dataflow of a chart starts from the empty forest. Roots are added for data blocks only, and every
other node is added below one that is there, so the forest is planted at every moment, whatever the
names of the views are.

* `Flow.Forest.StaysIn`: all nodes and links are kept.
* `Flow.Sprouts f g i`: `f` grew to the planted forest `g`, in which `i` is.
* `View.Grew.grewFrom`: the branch of a view grows so.
* `View.withData_planted`: the dataflow of all views is planted.
-/

namespace ChartPlan

open Flow

namespace Flow

variable {f g : Forest} {i j : NodeId} {n : Node}

/-! ### Forests that grow -/

namespace Forest

theorem Planted.recount (h : f.Planted) (ids : IdSupply) (requests : Dict Nat) :
    Planted { f with ids := ids, requests := requests } :=
  h.of_valid (h.toValidBut.congr rfl rfl ⟨h.arena.nodup, h.arena.vacant⟩ (fun _ => rfl) h.outputs)
    (fun _ => Iff.rfl) fun _ => rfl

theorem planted_empty : Planted {} :=
  ⟨valid_empty {}, fun {j} => by simp [holds, node?]⟩

theorem Planted.addRoot (h : f.Planted) (hn : n.isDataSource) : (f.add n none).1.Planted := by
  refine ⟨h.toValidBut.add n (by simp), fun {j} => ?_⟩
  show j ∈ (f.store n).1.sources ++ [(f.store n).2] ↔ _
  rw [sources_store, List.mem_append, List.mem_singleton, h.sourced]
  unfold holds
  rw [h.arena.node?_add, snd_add]
  by_cases hj : j = (f.store n).2
  · simp [hj, hn]
  · simp [hj]

theorem Arena.contains_add (h : f.Arena) (n : Node) (parent : Option NodeId) (j : NodeId) :
    (f.add n parent).1.contains j ↔ j = (f.add n parent).2 ∨ f.contains j := by
  unfold contains
  rw [h.node?_add]
  split <;> simp_all

/-- All nodes and links are kept; a source may get a name. -/
structure StaysIn (f g : Forest) : Prop where
  node {j : NodeId} {n : Node} : f.node? j = some n →
    g.node? j = some n ∨ ∃ s s', n = .source s ∧ g.node? j = some (.source s')
  parent {j : NodeId} : f.contains j → g.parent? j = f.parent? j

namespace StaysIn

theorem refl (f : Forest) : f.StaysIn f :=
  ⟨.inl, fun _ => rfl⟩

theorem contains (hfg : f.StaysIn g) (hj : f.contains j) : g.contains j := by
  obtain ⟨n, hn⟩ := exists_node hj
  rcases hfg.node hn with hn | ⟨_, _, -, hn⟩ <;> exact contains_of_node? hn

theorem kept (hfg : f.StaysIn g) (hn : f.node? j = some n) (hsource : n.isDataSource = false) :
    g.node? j = some n :=
  (hfg.node hn).resolve_right fun ⟨_, _, he, _⟩ => by
    rw [he] at hsource
    cases hsource

theorem trans {k : Forest} (hfg : f.StaysIn g) (hgh : g.StaysIn k) : f.StaysIn k where
  node hn := by
    rcases hfg.node hn with hg | ⟨s, _, rfl, hg⟩
    · exact hgh.node hg
    · rcases hgh.node hg with hh | ⟨_, _, -, hh⟩ <;> exact .inr ⟨s, _, rfl, hh⟩
  parent hj := (hgh.parent (hfg.contains hj)).trans (hfg.parent hj)

end StaysIn

namespace Planted

theorem staysIn_add (hf : f.Planted) (n : Node) (parent : Option NodeId) :
    f.StaysIn (f.add n parent).1 := by
  refine ⟨fun hn => .inl ?_, fun hj => ?_⟩
  · exact (hf.arena.node?_add_of_contains n parent (contains_of_node? hn)).trans hn
  · cases parent with
    | none => exact parent?_congr (edges_store f n) _
    | some p => rw [hf.parent?_add, if_neg (hf.arena.ne_add _ _ hj)]

end Planted

end Forest

theorem Node.isDataSource_ofBlock (data : DataBlock) : (Node.ofBlock data).isDataSource := by
  unfold Node.ofBlock
  split <;> rfl

theorem Node.isDataSource_adoptName (existing other : Node) :
    (existing.adoptName other).isDataSource = existing.isDataSource := by
  unfold Node.adoptName
  split <;> rfl

theorem Forest.Planted.staysIn_root (hf : f.Planted) (hn : n.isDataSource) :
    f.StaysIn (f.root n).1 ∧ (f.root n).1.holds (f.root n).2 Node.isDataSource := by
  unfold Forest.root
  split
  · rename_i i hfound
    have hi := hf.sourced.mp (List.mem_of_find?_eq_some hfound)
    obtain ⟨m, hm, hsource⟩ := holds_iff.mp hi
    have hnode : ∀ {j k}, f.node? j = some k →
        (f.modify i fun k => k.adoptName n).node? j = some k ∨ ∃ s s', k = .source s ∧
          (f.modify i fun k => k.adoptName n).node? j = some (.source s') := by
      intro j k hk
      rw [node?_modify, hk]
      split
      · cases k with
        | source s => cases n <;> exact .inr ⟨s, _, rfl, rfl⟩
        | _ => exact .inl rfl
      · exact .inl rfl
    refine ⟨⟨hnode, fun _ => rfl⟩, ?_⟩
    rw [holds_of_node? (by rw [node?_modify, if_pos rfl, hm]; rfl), Node.isDataSource_adoptName]
    exact hsource
  · exact ⟨hf.staysIn_add n none, (holds_of_node? (hf.arena.node?_add_self n none)).trans hn⟩

theorem Forest.Planted.node?_of_root (hf : f.Planted) {m : Node} (hm : (f.root n).1.node? j = some m) :
    f.node? j = some m ∨ m = n ∨ ∃ s s', f.node? j = some (.source s) ∧ m = .source s' ∧
      s'.descriptor = s.descriptor := by
  unfold Forest.root at hm
  split at hm
  · rw [node?_modify] at hm
    split at hm
    · obtain ⟨k, hk, rfl⟩ := Option.map_eq_some_iff.mp hm
      cases k with
      | source s => cases n <;> exact .inr (.inr ⟨s, _, hk, rfl, rfl⟩)
      | _ => exact .inl hk
    · exact .inl hm
  · exact (hf.arena.node?_of_add hm).elim (fun h => .inr (.inl h.2)) .inl

/-- `f` grew to the planted forest `g`, in which node `i` is. -/
structure Sprouts (f g : Forest) (i : NodeId) : Prop where
  planted : g.Planted
  stays : f.StaysIn g
  live : g.contains i

namespace Sprouts

theorem refl (hf : f.Planted) (hi : f.contains i) : Sprouts f f i :=
  ⟨hf, .refl f, hi⟩

section

variable (h : Sprouts f g i)

include h

theorem keeps (hj : f.contains j) : g.contains j :=
  h.stays.contains hj

theorem trans {k : Forest} (h' : Sprouts g k j) : Sprouts f k i :=
  ⟨h'.planted, h.stays.trans h'.stays, h'.keeps h.live⟩

theorem add (hn : n.isDataSource = false) :
    Sprouts f (g.add n (some i)).1 (g.add n (some i)).2 where
  planted := h.planted.add hn h.live
  stays := h.stays.trans (h.planted.staysIn_add n (some i))
  live := (h.planted.arena.contains_add _ _ _).mpr (.inl rfl)

theorem register (name : String) : Sprouts f (g.register name i) i :=
  ⟨h.planted.register name h.live, h.stays.trans ⟨.inl, fun _ => rfl⟩, h.live⟩

theorem freshId : Sprouts f g.freshId.1 i :=
  ⟨h.planted.recount _ _, h.stays.trans ⟨.inl, fun _ => rfl⟩, h.live⟩

theorem request (name : String) : Sprouts f (g.request name) i :=
  ⟨h.planted.recount _ _, h.stays.trans ⟨.inl, fun _ => rfl⟩, h.live⟩

end

end Sprouts

/-- `f` grew to `g` by a data source `i`, which may have been there before under another name. -/
structure Rooted (f g : Forest) (i : NodeId) : Prop extends Sprouts f g i where
  source : g.holds i Node.isDataSource
  old : ∀ {j k}, g.node? j = some k → k.isDataSource = false → f.node? j = some k

theorem Forest.Planted.rooted_addRoot (hf : f.Planted) (hn : n.isDataSource) :
    Rooted f (f.add n none).1 (f.add n none).2 where
  planted := hf.addRoot hn
  stays := hf.staysIn_add n none
  live := (hf.arena.contains_add _ _ _).mpr (.inl rfl)
  source := (holds_of_node? (hf.arena.node?_add_self n none)).trans hn
  old hk hsource := (hf.arena.node?_of_add hk).resolve_left fun h => by
    cases (h.2 ▸ hn).symm.trans hsource

theorem Forest.Planted.rooted_root (hf : f.Planted) (hn : n.isDataSource) :
    Rooted f (f.root n).1 (f.root n).2 := by
  obtain ⟨hstays, hroot⟩ := hf.staysIn_root hn
  refine ⟨⟨?_, hstays, contains_of_holds hroot⟩, hroot, fun hk hsource =>
    (hf.node?_of_root hk).resolve_right ?_⟩
  · unfold Forest.root
    split
    · exact hf.modify _ fun m _ => Node.isDataSource_adoptName m n
    · exact hf.addRoot hn
  · rintro (rfl | ⟨_, _, -, rfl, -⟩)
    · cases hn.symm.trans hsource
    · cases hsource

end Flow

/-! ### Branches that grow -/

/-- The branch grew out of a forest: its end is in a planted forest, which has kept all nodes. -/
abbrev Branch.GrewFrom (b : Branch) (f : Forest) : Prop :=
  Sprouts f b.forest b.tip

namespace Branch

variable {f : Forest} {b b' : Branch} {context : DataContext} {v : View}

section

variable (h : b.GrewFrom f)

include h

theorem GrewFrom.push {n : Node} (hn : n.isDataSource = false) :
    (b.push n).GrewFrom f :=
  h.add hn

theorem GrewFrom.output (name : String) (kind : OutputKind) :
    (b.output name kind).GrewFrom f :=
  (h.freshId.add rfl).register name

theorem GrewFrom.request (name : String) : (b.request name).GrewFrom f :=
  Sprouts.request h name

theorem GrewFrom.split (main : String) (m : Facet) : (b.split main m).GrewFrom f :=
  ((h.freshId.add rfl).request main).register m.name

theorem GrewFrom.lookupSource {data : Json} {name : String}
    (hb : b.lookupSource data name = .ok b') :
    b'.GrewFrom f ∧ b.forest.StaysIn b'.forest ∧ b'.tip = b.tip ∧ b'.known = b.known := by
  obtain ⟨block, side, -, hside, rfl⟩ := lookupSource_cases hb
  have hroot := (h.planted.rooted_root (Node.isDataSource_ofBlock block)).toSprouts
  have hgrew : side.GrewFrom b.forest := by
    rcases hside with rfl | ⟨c, rfl⟩
    · exact hroot
    · exact Sprouts.add hroot rfl
  have hdone := (hgrew.output name .lookup).request name
  exact ⟨h.trans hdone, hdone.stays, rfl, rfl⟩

end

end Branch

/-! ### Views -/

namespace View

open Checked

variable {f g : Forest} {v : View} {above : Option Above} {b : Branch} {context : DataContext}

/-- The main output of a view and its facet are in the forest. -/
structure Reaches (f : Forest) (part : DataPart) : Prop where
  main : f.contains part.main
  facet : ∀ i, part.facet = some i → f.contains i

theorem Reaches.mono {part : DataPart} (h : Reaches f part) (hkeeps : ∀ {j}, f.contains j → g.contains j) :
    Reaches g part :=
  ⟨hkeeps h.main, fun i hi => hkeeps (h.facet i hi)⟩

theorem rootOf_cases (v : View) (hf : f.Planted) (above : Option Above) :
    (∃ a, v.data = .inherit ∧ above = some a) ∨ (v.data = .inherit → above = none) ∧
      Rooted f (v.rootOf above f).1 (v.rootOf above f).2 := by
  unfold rootOf
  cases v.data with
  | empty => exact .inr ⟨nofun, hf.rooted_addRoot rfl⟩
  | block data => exact .inr ⟨nofun, hf.rooted_root (Node.isDataSource_ofBlock data)⟩
  | inherit =>
    cases above with
    | none => exact .inr ⟨fun _ => rfl, hf.rooted_root rfl⟩
    | some a => exact .inl ⟨a, rfl, rfl⟩

theorem rootOf_sprouts (v : View) (hf : f.Planted)
    (habove : ∀ a, above = some a → Reaches f a.part) :
    Sprouts f (v.rootOf above f).1 (v.rootOf above f).2 := by
  rcases v.rootOf_cases hf above with ⟨a, hdata, rfl⟩ | ⟨-, hroot⟩
  · unfold rootOf
    rw [hdata]
    have ha := habove a rfl
    refine .refl hf ?_
    dsimp only
    cases hfacet : a.part.facet with
    | none => exact ha.main
    | some i => exact ha.facet i hfacet
  · exact hroot.toSprouts

theorem addFacet_sprouts (v : View) (child : Option View) (h : b.GrewFrom f) :
    (v.addFacet child b).value.1.Planted ∧ b.forest.StaysIn (v.addFacet child b).value.1 ∧
      Reaches (v.addFacet child b).value.1 ⟨b.tip, (v.addFacet child b).value.2, b.known⟩ := by
  rcases v.addFacet_cases child b with ⟨-, heq⟩ | ⟨mapping, -, heq⟩
  · rw [heq]
    exact ⟨h.planted, .refl _, h.live, nofun⟩
  · rw [heq]
    have hgrown := Branch.GrewFrom.split (.refl h.planted h.live) (v.inner "main")
      (v.facetNode mapping child b.forest.freshId.2).value
    refine ⟨hgrown.planted, hgrown.stays, hgrown.keeps h.live, ?_⟩
    rintro i ⟨⟩
    exact hgrown.live

/-- What is kept while the views of trees get their data, one after the other. `Inv` is known of the
trees to come and the forest so far, `Hands` of what views are handed from above, and `Tells` of a tree
that is done. -/
structure Builds {σ : Type} (context : DataContext) (Inv : List (Tree View) → Forest → Prop)
    (Stays : Forest → Forest → Prop) (Hands : Forest → σ → Option Above → Prop)
    (Tells : Forest → σ → Option Above → Tree View → Prop) : Prop where
  refl {ts : List (Tree View)} {f : Forest} : Inv ts f → Stays f f
  trans {f g h : Forest} : Stays f g → Stays g h → Stays f h
  hands {f g : Forest} {s : σ} {above : Option Above} : Stays f g → Hands f s above → Hands g s above
  tells {f g : Forest} {s : σ} {above : Option Above} {t : Tree View} :
    Stays f g → Tells f s above t → Tells g s above t
  add {v : View} {children rest : List (Tree View)} {f : Forest} {s : σ} {above : Option Above} :
    Inv (.node v children :: rest) f → Hands f s above →
    Delivers (fun r : DataPart × Forest => Inv (children ++ rest) r.2 ∧ Stays f r.2 ∧ ∃ below,
      (children ≠ [] → Hands r.2 below (some ⟨r.1, v.isLayer⟩)) ∧ ∀ g ts, Stays r.2 g →
        (∀ t ∈ ts, Tells g below (some ⟨r.1, v.isLayer⟩) t) →
        Tells g s above (.node { v with dataPart := some r.1 } ts))
      (v.addData context (children.head?.map Tree.value) above f).outcome

section
variable {σ : Type} {Inv : List (Tree View) → Forest → Prop}
  {Stays : Forest → Forest → Prop} {Hands : Forest → σ → Option Above → Prop}
  {Tells : Forest → σ → Option Above → Tree View → Prop}

mutual

theorem Builds.tree (h : Builds context Inv Stays Hands Tells) : (t : Tree View) →
    {rest : List (Tree View)} → {f : Forest} → {s : σ} → {above : Option Above} →
    Inv (t :: rest) f → Hands f s above →
    Delivers (fun r : Tree View × Forest => Inv rest r.2 ∧ Stays f r.2 ∧ Tells r.2 s above r.1)
      (buildData context above f t).outcome
  | .node v children, _, f, _, _, hinv, hhands => by
    unfold buildData
    refine delivers_bind (h.add hinv hhands) fun r hr => ?_
    obtain ⟨hinv, hstays, below, hbelow, htells⟩ := hr
    refine delivers_bind (h.trees children hinv hbelow) fun r' hr' => ?_
    obtain ⟨hinv', hstays', htold⟩ := hr'
    exact ⟨hinv', h.trans hstays hstays', htells _ _ hstays' htold⟩

theorem Builds.trees (h : Builds context Inv Stays Hands Tells) : (ts : List (Tree View)) →
    {rest : List (Tree View)} → {f : Forest} → {s : σ} → {above : Option Above} →
    Inv (ts ++ rest) f → (ts ≠ [] → Hands f s above) →
    Delivers (fun r : List (Tree View) × Forest => Inv rest r.2 ∧ Stays f r.2 ∧
      ∀ t ∈ r.1, Tells r.2 s above t) (buildDataAll context above f ts).outcome
  | [], _, _, _, _, hinv, _ => ⟨hinv, h.refl hinv, fun _ ht => absurd ht List.not_mem_nil⟩
  | t :: ts, _, f, _, above, hinv, hhands => by
    unfold buildDataAll
    have habove := hhands (List.cons_ne_nil t ts)
    refine delivers_bind (h.tree t hinv habove) fun r hr => ?_
    obtain ⟨hinv, hstays, htells⟩ := hr
    refine delivers_bind (h.trees ts hinv fun _ => h.hands hstays habove) fun r' hr' => ?_
    obtain ⟨hinv', hstays', htold⟩ := hr'
    exact ⟨hinv', h.trans hstays hstays', List.forall_mem_cons.mpr ⟨h.tells hstays' htells, htold⟩⟩

end

theorem Builds.withData (h : Builds context Inv Stays Hands Tells) {t : Tree View} {s : σ}
    (hinv : Inv [t] {}) (hhands : Hands {} s none) :
    Delivers (fun r : Tree View × Forest => Inv [] r.2 ∧ Tells r.2 s none r.1)
      (withData context t).outcome :=
  (h.tree t hinv hhands).mono fun _ hr => ⟨hr.1, hr.2.2⟩

end

end View

end ChartPlan
