import ChartPlan.Flow.Bins

/-!
# Merged binnings

A bin node keeps its binnings under their keys. When two nodes become one, binnings with the same key
become one as well, which computes what the first of them computes and has the names of both.

* `Binning.Alike`: binnings of the same field with the same parameters.
* `Binning.mem_outputs_absorb`: the names of a binning that has absorbed another one.
* `Bins.Gathers`: what is known of a node into which binnings were merged; `Bins.gathers_merge`.
-/

namespace ChartPlan

open List

namespace Dict

variable {α : Type}

theorem mem_insert_self (d : Dict α) (key : String) (v : α) : (key, v) ∈ insert d key v := by
  have hget : get? (insert d key v) key = some v := by rw [get?_insert, if_pos rfl]
  exact mem_of_get? hget

theorem mem_insert_of_mem {d : Dict α} {entry : String × α} (h : entry ∈ d) (key : String) (v : α) :
    entry ∈ insert d key v ∨ entry.1 = key ∧ get? d key = some entry.2 := by
  induction d with
  | nil => cases h
  | cons first rest ih =>
    unfold insert
    split
    · exact .inl (mem_cons_of_mem _ h)
    · split
      · rename_i same
        rcases mem_cons.mp h with rfl | h
        · exact .inr ⟨same.symm, by rw [get?, if_pos same]⟩
        · exact .inl (mem_cons_of_mem _ h)
      · rename_i different
        rcases mem_cons.mp h with rfl | h
        · exact .inl mem_cons_self
        · refine (ih h).imp (mem_cons_of_mem _) (And.imp_right fun hget => ?_)
          rw [get?, if_neg different, hget]

end Dict

namespace Flow

/-! ### Binnings -/

namespace Binning

variable {b c : Binning} {pair : String × String} {name : String}

/-- Binnings of the same field with the same parameters. -/
structure Alike (b c : Binning) : Prop where
  field : b.field = c.field
  params : b.params = c.params

theorem Alike.trans {d : Binning} (h : b.Alike c) (h' : c.Alike d) : b.Alike d :=
  ⟨h.field.trans h'.field, h.params.trans h'.params⟩

theorem Alike.key (h : b.Alike c) : b.key = c.key := by
  unfold Binning.key
  rw [h.field, h.params]

theorem mem_outputs_expose {other : String × String} :
    pair ∈ (b.expose other).outputs ↔ pair ∈ b.outputs ∨ pair = other := by
  unfold expose
  split
  · rename_i hother
    exact ⟨.inl, fun h => h.elim id fun he => he ▸ contains_iff_mem.mp hother⟩
  · simp [outputs, or_assoc]

theorem mem_outputs_absorb :
    pair ∈ (b.absorb c).outputs ↔ pair ∈ b.outputs ∨ pair ∈ c.outputs := by
  show pair ∈ (c.outputs.foldl expose b).outputs ↔ _
  induction c.outputs generalizing b with
  | nil => simp
  | cons first rest ih => rw [foldl_cons, ih, mem_outputs_expose, mem_cons, or_assoc]

theorem alike_absorb (b c : Binning) : b.Alike (b.absorb c) := by
  have hexpose : ∀ (b : Binning) (pair : String × String), b.Alike (b.expose pair) := fun b pair => by
    unfold expose
    split <;> exact ⟨rfl, rfl⟩
  have hexposed : b.Alike (c.outputs.foldl expose b) :=
    foldlRecOn (motive := b.Alike) c.outputs expose ⟨rfl, rfl⟩ fun d hd pair _ =>
      hd.trans (hexpose d pair)
  exact ⟨hexposed.field, hexposed.params⟩

theorem mem_produced : name ∈ b.produced ↔
    (∃ pair ∈ b.outputs, name = pair.1 ∨ name = pair.2) ∨ ∃ r, b.range = some r ∧ name = r.output := by
  unfold produced
  cases b.range <;> simp

theorem mem_produced_absorb (h : name ∈ (b.absorb c).produced) :
    name ∈ b.produced ∨ name ∈ c.produced := by
  simp only [mem_produced] at h ⊢
  rcases h with ⟨pair, hpair, hname⟩ | ⟨r, hr, hname⟩
  · rcases mem_outputs_absorb.mp hpair with hpair | hpair
    · exact .inl (.inl ⟨pair, hpair, hname⟩)
    · exact .inr (.inl ⟨pair, hpair, hname⟩)
  · rcases Option.or_eq_some_iff.mp (show b.range.or c.range = some r from hr) with hr | ⟨-, hr⟩
    · exact .inl (.inr ⟨r, hr, hname⟩)
    · exact .inr (.inr ⟨r, hr, hname⟩)

end Binning

/-! ### Nodes -/

namespace Bins

variable {node other : Bins} {P Q : String → Binning → Prop} {name : String}

/-- A node into which the binnings with a property were merged: it has all their names under their keys,
and what it holds comes from them. -/
structure Gathers (node : Bins) (P : String → Binning → Prop) : Prop where
  holds : ∀ {key b}, P key b → ∃ c, (key, c) ∈ node.bins ∧ b.outputs ⊆ c.outputs
  alike : ∀ {key c}, (key, c) ∈ node.bins → ∃ b, P key b ∧ b.Alike c
  names : ∀ {key c name}, (key, c) ∈ node.bins → name ∈ c.produced → ∃ b, P key b ∧ name ∈ b.produced

theorem gathers_self (node : Bins) : node.Gathers fun key b => (key, b) ∈ node.bins where
  holds {_ b} hb := ⟨b, hb, List.Subset.refl _⟩
  alike {_ c} hc := ⟨c, hc, rfl, rfl⟩
  names {_ c _} hc hname := ⟨c, hc, hname⟩

theorem Gathers.congr (h : node.Gathers P) (hPQ : ∀ {key b}, P key b ↔ Q key b) : node.Gathers Q where
  holds hb := h.holds (hPQ.mpr hb)
  alike hc := by
    obtain ⟨b, hb, halike⟩ := h.alike hc
    exact ⟨b, hPQ.mp hb, halike⟩
  names hc hname := by
    obtain ⟨b, hb, hname⟩ := h.names hc hname
    exact ⟨b, hPQ.mp hb, hname⟩

theorem Gathers.insert (h : node.Gathers P) {key : String} {theirs merged : Binning}
    (hours : ∀ {ours}, node.bins.get? key = some ours → ours.outputs ⊆ merged.outputs)
    (htheirs : theirs.outputs ⊆ merged.outputs)
    (halike : ∃ b, (P key b ∨ b = theirs) ∧ b.Alike merged)
    (hnames : ∀ {name}, name ∈ merged.produced → ∃ b, (P key b ∨ b = theirs) ∧ name ∈ b.produced) :
    Gathers ⟨node.bins.insert key merged⟩ fun k b => P k b ∨ k = key ∧ b = theirs where
  holds {k b} hb := by
    rcases hb with hb | ⟨rfl, rfl⟩
    · obtain ⟨c, hc, hsub⟩ := h.holds hb
      rcases Dict.mem_insert_of_mem hc key merged with hstays | ⟨rfl, hget⟩
      · exact ⟨c, hstays, hsub⟩
      · exact ⟨merged, Dict.mem_insert_self _ _ _, List.Subset.trans hsub (hours hget)⟩
    · exact ⟨merged, Dict.mem_insert_self _ _ _, htheirs⟩
  alike {k c} hc := by
    rcases Dict.mem_of_mem_insert hc with hc | hc
    · cases hc
      obtain ⟨b, hb, halike⟩ := halike
      exact ⟨b, hb.imp_right fun he => ⟨rfl, he⟩, halike⟩
    · obtain ⟨b, hb, halike⟩ := h.alike hc
      exact ⟨b, .inl hb, halike⟩
  names {k c name} hc hname := by
    rcases Dict.mem_of_mem_insert hc with hc | hc
    · cases hc
      obtain ⟨b, hb, hname⟩ := hnames hname
      exact ⟨b, hb.imp_right fun he => ⟨rfl, he⟩, hname⟩
    · obtain ⟨b, hb, hname⟩ := h.names hc hname
      exact ⟨b, .inl hb, hname⟩

theorem Gathers.mergeEntry (h : node.Gathers P) (renames : Renames) (key : String) (theirs : Binning) :
    (mergeEntry (node, renames) (key, theirs)).1.Gathers fun k b => P k b ∨ k = key ∧ b = theirs := by
  unfold Bins.mergeEntry
  dsimp only
  split
  · rename_i ours hours
    have hmem : (key, ours) ∈ node.bins := Dict.mem_of_get? hours
    refine h.insert (fun hget pair hpair => ?_)
      (fun pair hpair => Binning.mem_outputs_absorb.mpr (.inr hpair)) ?_ fun hname => ?_
    · cases hours.symm.trans hget
      exact Binning.mem_outputs_absorb.mpr (.inl hpair)
    · obtain ⟨b, hb, halike⟩ := h.alike hmem
      exact ⟨b, .inl hb, halike.trans (Binning.alike_absorb _ _)⟩
    · rcases Binning.mem_produced_absorb hname with hname | hname
      · obtain ⟨b, hb, hname⟩ := h.names hmem hname
        exact ⟨b, .inl hb, hname⟩
      · exact ⟨theirs, .inr rfl, hname⟩
  · rename_i hnone
    refine h.insert (fun hget => ?_) (List.Subset.refl _) ⟨theirs, .inr rfl, rfl, rfl⟩
      fun hname => ⟨theirs, .inr rfl, hname⟩
    cases hnone.symm.trans hget

theorem Gathers.foldl_mergeEntry (h : node.Gathers P) (renames : Renames)
    (entries : List (String × Binning)) :
    (entries.foldl Bins.mergeEntry (node, renames)).1.Gathers fun key b =>
      P key b ∨ (key, b) ∈ entries := by
  induction entries generalizing node renames P with
  | nil => exact h.congr (by simp)
  | cons entry rest ih =>
    obtain ⟨key, theirs⟩ := entry
    exact (ih (h.mergeEntry renames key theirs) _).congr (by simp [or_assoc])

theorem gathers_merge (node other : Bins) (renames : Renames) : (node.merge other renames).1.Gathers
    fun key b => (key, b) ∈ node.bins ∨ (key, b) ∈ other.bins :=
  node.gathers_self.foldl_mergeEntry renames other.bins

theorem mem_deps : name ∈ node.deps ↔ ∃ key b, (key, b) ∈ node.bins ∧ b.field = name := by
  simp [deps, NameSet.mem_ofList, Dict.values]

theorem mem_produced : name ∈ node.produced ↔ ∃ key b, (key, b) ∈ node.bins ∧ name ∈ b.produced := by
  simp only [produced, NameSet.mem_ofList, Dict.values, mem_flatMap, mem_map, Prod.exists,
    exists_eq_right]
  exact ⟨fun ⟨b, ⟨key, hb⟩, hname⟩ => ⟨key, b, hb, hname⟩, fun ⟨key, b, hb, hname⟩ =>
    ⟨b, ⟨key, hb⟩, hname⟩⟩

theorem mem_deps_merge {renames : Renames} (h : name ∈ (node.merge other renames).1.deps) :
    name ∈ node.deps ∨ name ∈ other.deps := by
  obtain ⟨key, c, hc, rfl⟩ := mem_deps.mp h
  obtain ⟨b, hb, halike⟩ := (node.gathers_merge other renames).alike hc
  rw [← halike.field]
  exact hb.imp (fun hb => mem_deps.mpr ⟨key, b, hb, rfl⟩) fun hb => mem_deps.mpr ⟨key, b, hb, rfl⟩

theorem mem_produced_merge {renames : Renames} (h : name ∈ (node.merge other renames).1.produced) :
    name ∈ node.produced ∨ name ∈ other.produced := by
  obtain ⟨key, c, hc, hname⟩ := mem_produced.mp h
  obtain ⟨b, hb, hname⟩ := (node.gathers_merge other renames).names hc hname
  exact hb.imp (fun hb => mem_produced.mpr ⟨key, b, hb, hname⟩) fun hb =>
    mem_produced.mpr ⟨key, b, hb, hname⟩

end Bins

end Flow

end ChartPlan
