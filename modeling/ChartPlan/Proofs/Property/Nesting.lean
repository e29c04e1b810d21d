import ChartPlan.Proofs.Json.Equality
import ChartPlan.Proofs.Json.Fields
import ChartPlan.Proofs.Property.Precedence
import Mathlib.Data.List.Induction

/-!
# Merging in nested groups

Components of single views merge in groups, and what a group has merged is merged again in the group
around it. A domain is united from references, and a title joined from titles: what is known of the
result in terms of the single views says how far it depends on the groups.

* `Nesting.merged`: values of views, merged in nested groups; `Nesting.units`: those values in order.
* `domains_united`: no reference is lost, and none is repeated.
* `titles_joined`: titles of a flat group are joined without repeats; in nested groups none is lost,
  but some may come again.
-/

namespace ChartPlan

open List

/-! ### First occurrences -/

section

variable {α : Type} [BEq α] {xs ys : List α} {x : α}

def keepFirst (seen : List α) (x : α) : List α :=
  if seen.contains x then seen else seen ++ [x]

theorem foldl_keepFirst (seen : List α) :
    xs.foldl keepFirst seen = List.eraseDupsBy.loop (· == ·) xs seen.reverse := by
  induction xs generalizing seen with
  | nil => simp [List.eraseDupsBy.loop]
  | cons x xs ih =>
    rw [foldl_cons, ih, keepFirst, List.eraseDupsBy.loop, any_reverse, any_beq]
    cases seen.contains x <;> simp

theorem eraseDups_append : (xs ++ ys).eraseDups = ys.foldl keepFirst xs.eraseDups := by
  have hfold : ∀ zs : List α, zs.eraseDups = zs.foldl keepFirst [] := fun _ =>
    (foldl_keepFirst []).symm
  rw [hfold, hfold, foldl_append]

variable [EquivBEq α]

theorem contains_eraseDups : xs.eraseDups.contains x = xs.contains x := by
  induction xs using reverseRecOn with
  | nil => rfl
  | append_singleton xs y ih =>
    rw [eraseDups_append, foldl_cons, foldl_nil, keepFirst]
    cases hxy : x == y with
    | false => split <;> simp [ih, hxy]
    | true => split <;> simp_all [contains_congr hxy]

theorem eraseDups_concat (xs : List α) (x : α) : (xs ++ [x]).eraseDups =
    if xs.contains x then xs.eraseDups else xs.eraseDups ++ [x] := by
  rw [eraseDups_append, ← contains_eraseDups]
  rfl

theorem eraseDups_append_eraseDups (xs ys : List α) :
    (xs ++ ys.eraseDups).eraseDups = (xs ++ ys).eraseDups := by
  induction ys using reverseRecOn with
  | nil => rfl
  | append_singleton ys y ih =>
    rw [eraseDups_concat ys, ← append_assoc, eraseDups_concat]
    split <;> simp_all [← append_assoc, eraseDups_concat, contains_eraseDups]

theorem eraseDups_eraseDups : xs.eraseDups.eraseDups = xs.eraseDups :=
  eraseDups_append_eraseDups [] xs

theorem eraseDups_append_congr {xs' ys' : List α} (hxs : xs.eraseDups = xs'.eraseDups)
    (hys : ys.eraseDups = ys'.eraseDups) : (xs ++ ys).eraseDups = (xs' ++ ys').eraseDups := by
  rw [← eraseDups_append_eraseDups, hys, eraseDups_append_eraseDups, eraseDups_append, hxs,
    ← eraseDups_append]

theorem eraseDups_append_of_contains (h : ∀ y ∈ ys, xs.contains y) :
    (xs ++ ys).eraseDups = xs.eraseDups := by
  induction ys using reverseRecOn with
  | nil => rw [append_nil]
  | append_singleton ys y ih =>
    have hy : (xs ++ ys).contains y := by simp [h y]
    rw [← append_assoc, eraseDups_concat, if_pos hy, ih fun z hz => h z (by simp [hz])]

theorem eraseDups_sublist : xs.eraseDups.Sublist xs := by
  induction xs using reverseRecOn with
  | nil => exact .slnil
  | append_singleton xs x ih =>
    rw [eraseDups_concat]
    split
    · exact ih.trans (sublist_append_left xs [x])
    · exact ih.append_right [x]

end

theorem nodup_eraseDups (xs : List String) : xs.eraseDups.Nodup := by
  induction xs using reverseRecOn with
  | nil => exact nodup_nil
  | append_singleton xs x ih =>
    rw [eraseDups_concat, ← contains_eraseDups]
    split
    · exact ih
    · rename_i hx
      rw [contains_iff_mem] at hx
      exact nodup_append.mpr ⟨ih, pairwise_singleton _ x, fun a ha b hb he =>
        hx (mem_singleton.mp hb ▸ he ▸ ha)⟩

theorem eraseDups_eq_self {xs : List String} : xs.eraseDups = xs ↔ xs.Nodup := by
  refine ⟨fun h => h ▸ nodup_eraseDups xs, fun h => eraseDups_sublist.eq_of_length ?_⟩
  have hmem : ∀ x, x ∈ xs.eraseDups ↔ x ∈ xs := fun x => by
    rw [← contains_iff_mem, contains_eraseDups, contains_iff_mem]
  exact ((perm_ext_iff_of_nodup (nodup_eraseDups xs) h).mpr hmem).length_eq

/-! ### Nested groups -/

/-- Values of single views in nested groups. A group merges its parts from the first one on, so a group
of several parts is a pair whose first part is a group as well. -/
inductive Nesting (α : Type) where
  | unit (value : α)
  | pair (first second : Nesting α)

namespace Nesting

def units {α : Type} : Nesting α → List α
  | .unit value => [value]
  | .pair first second => first.units ++ second.units

def merged (tie : Option TieBreaker) : Nesting (Setting Json) → Option (Setting Json)
  | .unit s => some s
  | .pair first second => Setting.merge tie (first.merged tie) (second.merged tie)

theorem exists_units {α : Type} (n : Nesting α) : ∃ first rest, n.units = first :: rest := by
  induction n with
  | unit value => exact ⟨value, [], rfl⟩
  | pair _ second ih _ =>
    obtain ⟨first, rest, h⟩ := ih
    exact ⟨first, rest ++ second.units, by rw [units, h, cons_append]⟩

end Nesting

section

variable (tie : Option TieBreaker)

theorem Nesting.exists_merged {P : Setting Json → Nesting (Setting Json) → Prop}
    (n : Nesting (Setting Json)) (hunit : ∀ u ∈ n.units, P u (.unit u))
    (hmerge : ∀ {a b first second}, P a first → P b second →
      ∃ m, Setting.merge tie (some a) (some b) = some m ∧ P m (.pair first second)) :
    ∃ m, n.merged tie = some m ∧ P m n := by
  induction n with
  | unit u => exact ⟨u, rfl, hunit u mem_cons_self⟩
  | pair first second ih ih' =>
    obtain ⟨a, ha, hP⟩ := ih fun u hu => hunit u (mem_append_left _ hu)
    obtain ⟨b, hb, hP'⟩ := ih' fun u hu => hunit u (mem_append_right _ hu)
    rw [merged, ha, hb]
    exact hmerge hP hP'

theorem Setting.exists_mergeAll {P : Setting Json → List (Setting Json) → Prop} {first : Setting Json}
    (rest : List (Setting Json)) (hfirst : P first [first]) (hmerge : ∀ {a us}, ∀ u ∈ rest, P a us →
      ∃ m, merge tie (some a) (some u) = some m ∧ P m (us ++ [u])) :
    ∃ m, mergeAll tie (first :: rest) = some m ∧ P m (first :: rest) := by
  induction rest using reverseRecOn with
  | nil => exact ⟨first, rfl, hfirst⟩
  | append_singleton rest u ih =>
    obtain ⟨m, hm, hP⟩ := ih fun v hv => hmerge v (mem_append_left _ hv)
    rw [mergeAll, ← cons_append, foldl_append, ← mergeAll, hm]
    exact hmerge u (by simp) hP

end

/-! ### Domains -/

namespace Json

theorem unsignedItems_eq_map (items : List Json) : unsignedItems items = items.map unsigned := by
  induction items with
  | nil => rfl
  | cons v rest ih => rw [unsignedItems, ih, map_cons]

theorem get?_unsignedFields (fields : Dict Json) (key : String) :
    Dict.get? (unsignedFields fields) key = (fields.get? key).map unsigned := by
  induction fields with
  | nil => rfl
  | cons entry rest ih =>
    obtain ⟨k, v⟩ := entry
    rw [unsignedFields, Dict.get?, Dict.get?, ih]
    split <;> rfl

end Json

theorem domainRefs_unsigned (v : Json) :
    domainRefs v.unsigned = (domainRefs v).map Json.unsigned := by
  cases v with
  | obj fields =>
    simp only [Json.unsigned, domainRefs, Json.field?_obj, Json.get?_unsignedFields]
    cases Dict.get? fields "fields" with
    | none => rfl
    | some v => cases v <;> simp [Json.unsigned, Json.items?, Json.unsignedItems_eq_map]
  | _ => rfl

theorem items?_of_domainRefs {v : Json} (h : ∀ r ∈ domainRefs v, r.items? = none) :
    v.items? = none := by
  cases v with
  | arr items => exact h _ mem_cons_self
  | _ => rfl

theorem contains_of_map_unsigned {xs ys : List Json}
    (h : xs.map Json.unsigned = ys.map Json.unsigned) : ∀ y ∈ ys, xs.contains y := by
  intro y hy
  have hmem : y.unsigned ∈ xs.map Json.unsigned := h ▸ mem_map_of_mem hy
  obtain ⟨x, hx, hxy⟩ := mem_map.mp hmem
  exact contains_iff_exists_mem_beq.mpr ⟨x, hx, Json.beq_iff_unsigned.mpr hxy.symm⟩

/-- A reference that is no list of references itself. -/
def IsReference (r : Json) : Prop :=
  (r.field? "fields").bind Json.items? = none

theorem domainRefs_unionDomain {a b : Json} (hb : b.items? = none)
    (hrefs : ∀ r ∈ domainRefs a ++ domainRefs b, IsReference r) :
    domainRefs (unionDomain a b) = (domainRefs a ++ domainRefs b).eraseDups := by
  have hnew : addNew [] (domainRefs a ++ domainRefs b) = (domainRefs a ++ domainRefs b).eraseDups :=
    foldl_keepFirst []
  unfold unionDomain
  split
  · cases hb
  · rw [hnew]
    split
    · rename_i only honly
      have hmem : only ∈ domainRefs a ++ domainRefs b := eraseDups_sublist.mem (by simp [honly])
      rw [honly, domainRefs, hrefs only hmem]
    · cases (a.field? "sort").or (b.field? "sort") <;>
        simp [domainRefs, Json.withField?, Json.field?_withField_ne, Json.items?]

/-- What a domain is made of is united: from a domain that fits `L` and another one that fits `R`. -/
structure Gathers (parts : Json → List Json) (L R : Json → Prop) : Prop where
  unsigned : ∀ {a b}, L a → R b → a.unsigned = b.unsigned →
    (parts a).map Json.unsigned = (parts b).map Json.unsigned
  union : ∀ {a b}, L a → R b →
    L (unionDomain a b) ∧ parts (unionDomain a b) = (parts a ++ parts b).eraseDups

/-- A merged domain is made of the parts of those that it comes from. -/
structure MadeOf (parts : Json → List Json) (L : Json → Prop) (standing : Bool) (m : Setting Json)
    (units : List (Setting Json)) : Prop where
  standing : m.explicit = standing
  fits : L m.value
  parts : parts m.value = (units.flatMap fun u => parts u.value).eraseDups

section

variable {parts : Json → List Json} {L R : Json → Prop} {standing : Bool}

theorem madeOf_single {u : Setting Json} (hstanding : u.explicit = standing) (hfits : L u.value)
    (hdistinct : (parts u.value).eraseDups = parts u.value) : MadeOf parts L standing u [u] :=
  ⟨hstanding, hfits, by rw [flatMap_singleton, hdistinct]⟩

theorem Gathers.merge (h : Gathers parts L R) {a b : Setting Json} {us vs : List (Setting Json)}
    (ha : MadeOf parts L standing a us) (hb : MadeOf parts R standing b vs) :
    ∃ m, Setting.merge (Scale.tieBreaker "domain") (some a) (some b) = some m ∧
      MadeOf parts L standing m (us ++ vs) := by
  have hall : ((us ++ vs).flatMap fun u => parts u.value).eraseDups =
      (parts a.value ++ parts b.value).eraseDups := by
    rw [flatMap_append, ha.parts, hb.parts]
    exact eraseDups_append_congr eraseDups_eraseDups.symm eraseDups_eraseDups.symm
  have hsame : a.explicit = b.explicit := ha.standing.trans hb.standing.symm
  show ∃ m, Setting.merge (some uniteDomains) (some a) (some b) = some m ∧ _
  simp only [Setting.merge, hsame, Bool.and_not_self, Bool.false_eq_true, if_false]
  split
  · rename_i heq
    have hcontains := contains_of_map_unsigned (h.unsigned ha.fits hb.fits (Json.beq_iff_unsigned.mp heq))
    refine ⟨a, rfl, ha.standing, ha.fits, ?_⟩
    rw [hall, eraseDups_append_of_contains hcontains, ha.parts, eraseDups_eraseDups]
  · obtain ⟨hfits, hparts⟩ := h.union ha.fits hb.fits
    exact ⟨_, rfl, (TieBreaker.impartial_uniteDomains a b hsame).trans ha.standing, hfits,
      hparts.trans hall.symm⟩

end

theorem gathers_refs (Ok : Json → Prop) (hOk : ∀ {r}, Ok r → IsReference r) :
    Gathers domainRefs (fun v => ∀ r ∈ domainRefs v, Ok r)
      (fun v => v.items? = none ∧ ∀ r ∈ domainRefs v, Ok r) where
  unsigned _ _ h := by rw [← domainRefs_unsigned, ← domainRefs_unsigned, h]
  union {a b} ha hb := by
    have hall : ∀ r ∈ domainRefs a ++ domainRefs b, Ok r := fun r hr =>
      (mem_append.mp hr).elim (ha r) (hb.2 r)
    have hrefs := domainRefs_unionDomain (a := a) hb.1 fun r hr => hOk (hall r hr)
    exact ⟨fun r hr => hall r (eraseDups_sublist.mem (hrefs ▸ hr)), hrefs⟩

/-- An array of distinct items. -/
def IsArray (v : Json) : Prop :=
  ∃ items, v = .arr items ∧ items.eraseDups = items

theorem gathers_items : Gathers (fun v => v.items?.getD []) IsArray IsArray where
  unsigned := by
    rintro _ _ ⟨xs, rfl, -⟩ ⟨ys, rfl, -⟩ h
    have hitems := Json.arr.inj h
    rwa [Json.unsignedItems_eq_map, Json.unsignedItems_eq_map] at hitems
  union := by
    rintro _ _ ⟨xs, rfl, hxs⟩ ⟨ys, rfl, -⟩
    have hnew : addNew xs ys = (xs ++ ys).eraseDups := by
      rw [eraseDups_append, hxs]
      rfl
    exact ⟨⟨_, congrArg Json.arr hnew, eraseDups_eraseDups⟩, hnew⟩

/-- A domain that is no array, with distinct references that are no lists of references. -/
structure IsDomain (v : Json) : Prop where
  notArray : v.items? = none
  distinct : (domainRefs v).eraseDups = domainRefs v
  references : ∀ r ∈ domainRefs v, IsReference r

/-- Take domains that are no arrays, all written or all inferred, each made of distinct references. A
group that unites them has every reference of theirs once, in order of first occurrence. If no reference
is an array this holds for nested groups as well. Arrays of distinct items are united in the same way,
in whatever groups. -/
theorem domains_united {standing : Bool} (n : Nesting (Setting Json))
    (hstanding : ∀ u ∈ n.units, u.explicit = standing) :
    ((∀ u ∈ n.units, IsDomain u.value) →
      (∃ m, Setting.mergeAll (Scale.tieBreaker "domain") n.units = some m ∧
        domainRefs m.value = (n.units.flatMap fun u => domainRefs u.value).eraseDups) ∧
      ((∀ u ∈ n.units, ∀ r ∈ domainRefs u.value, r.items? = none) →
        ∃ m, n.merged (Scale.tieBreaker "domain") = some m ∧
          domainRefs m.value = (n.units.flatMap fun u => domainRefs u.value).eraseDups)) ∧
    ((∀ u ∈ n.units, IsArray u.value) → ∃ m, n.merged (Scale.tieBreaker "domain") = some m ∧
      m.value = .arr (n.units.flatMap fun u => u.value.items?.getD []).eraseDups) := by
  refine ⟨fun hdomains => ⟨?_, fun hscalar => ?_⟩, fun harrays => ?_⟩
  · have hgathers := gathers_refs IsReference id
    obtain ⟨first, rest, hunits⟩ := n.exists_units
    rw [hunits] at hstanding hdomains ⊢
    have hfirst := hdomains first mem_cons_self
    obtain ⟨m, hm, h⟩ := Setting.exists_mergeAll _ rest
      (madeOf_single (hstanding first mem_cons_self) hfirst.references hfirst.distinct)
      fun u hu ha =>
        have hdomain := hdomains u (mem_cons_of_mem _ hu)
        hgathers.merge ha (madeOf_single (hstanding u (mem_cons_of_mem _ hu))
          ⟨hdomain.notArray, hdomain.references⟩ hdomain.distinct)
    exact ⟨m, hm, h.parts⟩
  · have hgathers := gathers_refs (fun r => IsReference r ∧ r.items? = none) And.left
    obtain ⟨m, hm, h⟩ := n.exists_merged _ (P := fun m n => MadeOf domainRefs _ standing m n.units)
      (fun u hu => madeOf_single (hstanding u hu)
        (fun r hr => ⟨(hdomains u hu).references r hr, hscalar u hu r hr⟩) (hdomains u hu).distinct)
      fun ha hb => hgathers.merge ha { hb with
        fits := ⟨items?_of_domainRefs fun r hr => (hb.fits r hr).2, hb.fits⟩ }
    exact ⟨m, hm, h.parts⟩
  · obtain ⟨m, hm, h⟩ := n.exists_merged _ (P := fun m n => MadeOf _ IsArray standing m n.units)
      (fun u hu => madeOf_single (hstanding u hu) (harrays u hu) (by
        obtain ⟨items, hitems, hdistinct⟩ := harrays u hu
        rw [hitems]
        exact hdistinct)) gathers_items.merge
    obtain ⟨items, hitems, -⟩ := h.fits
    refine ⟨m, hm, hitems.trans (congrArg Json.arr ?_)⟩
    rw [← h.parts, hitems]
    rfl

/-- A field of a dataset, from which values are taken. -/
def fieldReference (data field : String) : Json :=
  .obj [("data", .str data), ("field", .str field)]

/-- Layers in layers: a domain of one field, one of two, and another of two. -/
def nestedDomains : Nesting (Setting Json) :=
  .pair
    (.pair (.unit ⟨fieldReference "data_0" "low", false⟩)
      (.unit ⟨.obj [("fields", .arr [fieldReference "data_0" "low", fieldReference "data_0" "high"])],
        false⟩))
    (.unit ⟨.obj [("fields", .arr [fieldReference "data_1" "mean", fieldReference "data_0" "high"])],
      false⟩)

theorem domains_united_nested : (∀ u ∈ nestedDomains.units, IsDomain u.value) ∧
    ∃ m, nestedDomains.merged (Scale.tieBreaker "domain") = some m ∧
      domainRefs m.value = [fieldReference "data_0" "low", fieldReference "data_0" "high",
        fieldReference "data_1" "mean"] := by
  have hunits : ∀ u ∈ nestedDomains.units, IsDomain u.value ∧
      ∀ r ∈ domainRefs u.value, r.items? = none := by
    simp only [nestedDomains, Nesting.units, cons_append, nil_append, forall_mem_cons]
    refine ⟨⟨⟨rfl, by rfl, ?_⟩, ?_⟩, ⟨⟨rfl, by rfl, ?_⟩, ?_⟩, ⟨⟨rfl, by rfl, ?_⟩, ?_⟩, by simp⟩ <;>
      rintro r (_ | ⟨_, _ | ⟨_, ⟨⟩⟩⟩) <;> rfl
  have hinferred : ∀ u ∈ nestedDomains.units, u.explicit = false := by
    simp [nestedDomains, Nesting.units]
  exact ⟨fun u hu => (hunits u hu).1, ((domains_united nestedDomains hinferred).1 fun u hu =>
    (hunits u hu).1).2 fun u hu => (hunits u hu).2⟩

/-- The list of a domain that unites lists of values. -/
def listDomain (low high : Int) : Dict Json :=
  [("fields", .arr [.arr [.num (.int low), .num (.int high)]])]

/-- Two layers of two, where one domain of each layer is sorted. -/
def nestedLists : Nesting (Setting Json) :=
  .pair
    (.pair (.unit ⟨.obj (listDomain 1 2), true⟩)
      (.unit ⟨.obj (listDomain 1 2 ++ [("sort", .bool true)]), true⟩))
    (.pair (.unit ⟨.obj (listDomain 3 4), true⟩)
      (.unit ⟨.obj (listDomain 3 4 ++ [("sort", .bool true)]), true⟩))

/-- The union of a layer is a single list, that is an array of values, which the next union does not
take for a reference. -/
theorem nested_lists_flatten : (∀ u ∈ nestedLists.units, u.explicit = true ∧ IsDomain u.value) ∧
    ∃ m, nestedLists.merged (Scale.tieBreaker "domain") = some m ∧
      domainRefs m.value ≠ (nestedLists.units.flatMap fun u => domainRefs u.value).eraseDups := by
  constructor
  · simp only [nestedLists, Nesting.units, cons_append, nil_append, forall_mem_cons]
    refine ⟨⟨trivial, rfl, by rfl, ?_⟩, ⟨trivial, rfl, by rfl, ?_⟩, ⟨trivial, rfl, by rfl, ?_⟩,
      ⟨trivial, rfl, by rfl, ?_⟩, by simp⟩ <;>
      rintro r (_ | ⟨_, ⟨⟩⟩) <;> rfl
  · refine ⟨⟨.arr [.num (.int 1), .num (.int 2), .num (.int 3), .num (.int 4)], true⟩, by rfl,
      fun h => ?_⟩
    exact absurd (congrArg List.length h) (by decide)

/-! ### Titles -/

/-- Titles of single views: none is empty or has the text that joins titles. -/
structure IsTitles (titles : List String) : Prop where
  ne_nil : titles ≠ []
  ne_empty : ∀ t ∈ titles, t ≠ ""
  single : ∀ t ∈ titles, ¬ [',', ' '] <:+: t.toList

theorem splitFrom_append {t tail piece : List Char} (ht : ¬ [',', ' '] <:+: t)
    (htail : tail.head? ≠ some ' ') : Text.splitFrom [',', ' '] 0 piece (t ++ tail) =
      Text.splitFrom [',', ' '] 0 (piece ++ t) tail := by
  induction t generalizing piece with
  | nil => rw [nil_append, append_nil]
  | cons c t ih =>
    rw [infix_cons_iff, not_or] at ht
    have hnot : [',', ' '].isPrefixOf (c :: (t ++ tail)) = false := by
      cases t <;> cases tail <;> grind [List.isPrefixOf]
    rw [cons_append, Text.splitFrom, hnot, if_neg Bool.false_ne_true, ih ht.2, append_assoc]
    rfl

namespace IsTitles

variable {as bs : List String}

theorem splitAt_intercalate (h : IsTitles as) :
    Text.splitAt [',', ' '] (", ".intercalate as).toList = as.map String.toList := by
  obtain ⟨hne, -, hsingle⟩ := h
  induction as with
  | nil => exact absurd rfl hne
  | cons t rest ih =>
    have ht := hsingle t mem_cons_self
    cases rest with
    | nil =>
      have hlast : Text.splitFrom [',', ' '] 0 [] (t.toList ++ []) = _ := splitFrom_append ht (by simp)
      rw [append_nil] at hlast
      simpa [Text.splitAt, Text.splitFrom] using hlast
    | cons u rest =>
      rw [String.intercalate_cons_cons, String.toList_append, String.toList_append, append_assoc,
        Text.splitAt, splitFrom_append ht (by simp), map_cons,
        ← ih (by simp) fun v hv => hsingle v (mem_cons_of_mem t hv)]
      rfl

theorem intercalate_inj (ha : IsTitles as) (hb : IsTitles bs)
    (h : ", ".intercalate as = ", ".intercalate bs) : as = bs := by
  have hsplit := ha.splitAt_intercalate
  rw [h, hb.splitAt_intercalate] at hsplit
  exact (map_inj_right fun _ _ => String.toList_injective).mp hsplit.symm

theorem isEmpty_intercalate (h : IsTitles as) : (", ".intercalate as).isEmpty = false := by
  obtain ⟨t, rest, rfl⟩ := exists_cons_of_ne_nil h.ne_nil
  have ht := h.ne_empty t mem_cons_self
  cases rest <;> simp [ht]

theorem append (ha : IsTitles as) (hb : IsTitles bs) : IsTitles (as ++ bs) :=
  ⟨by simp [ha.ne_nil], fun t ht => (mem_append.mp ht).elim (ha.ne_empty t) (hb.ne_empty t),
    fun t ht => (mem_append.mp ht).elim (ha.single t) (hb.single t)⟩

theorem contains_iff (ha : IsTitles as) (hb : IsTitles bs) :
    (as.map String.toList).contains (", ".intercalate bs).toList ↔ ∃ t ∈ as, bs = [t] := by
  rw [contains_iff_mem, mem_map]
  refine exists_congr fun t => and_congr_right fun ht => ⟨fun h => ?_, fun h => ?_⟩
  · refine hb.intercalate_inj ⟨by simp, ?_, ?_⟩ (String.toList_injective h).symm <;>
      rintro u (_ | ⟨_, ⟨⟩⟩)
    · exact ha.ne_empty t ht
    · exact ha.single t ht
  · rw [h, String.intercalate_singleton]

/-- A title is added unless it is the same, or a single one that is there. -/
theorem merge (ha : IsTitles as) (hb : IsTitles bs) :
    Setting.merge (some mergeTitles) (some ⟨.str (", ".intercalate as), false⟩)
      (some ⟨.str (", ".intercalate bs), false⟩) = some ⟨.str (", ".intercalate
        (if bs = as ∨ ∃ t ∈ as, bs = [t] then as else as ++ bs)), false⟩ := by
  by_cases hsame : bs = as
  · simp [Setting.merge, hsame]
  · have hne : ", ".intercalate as ≠ ", ".intercalate bs := fun h => hsame (ha.intercalate_inj hb h).symm
    have hbeq : (", ".intercalate as == ", ".intercalate bs) = false := beq_eq_false_iff_ne.mpr hne
    have hbeq' : (Json.str (", ".intercalate as) == Json.str (", ".intercalate bs)) = false := hbeq
    simp only [Setting.merge, hbeq, hbeq', mergeTitles, titleText, joinTitles, ha.isEmpty_intercalate,
      hb.isEmpty_intercalate, ha.splitAt_intercalate, ha.contains_iff hb, hsame, false_or, Bool.false_or,
      Bool.and_not_self, Bool.false_eq_true, if_false]
    split
    · rfl
    · rw [String.intercalate_append_of_ne_nil ha.ne_nil hb.ne_nil]

end IsTitles

def titlesOf (units : List (Setting Json)) : List String :=
  units.map fun u => titleText u.value

theorem titlesOf_append (us vs : List (Setting Json)) :
    titlesOf (us ++ vs) = titlesOf us ++ titlesOf vs :=
  map_append

/-- A merged title joins titles of the views that it comes from, in order, and each of them at least
once. -/
structure TitleOf (titles : List String) (m : Setting Json) (units : List (Setting Json)) : Prop
    extends IsTitles titles where
  value : m = ⟨.str (", ".intercalate titles), false⟩
  sublist : titles.Sublist (titlesOf units)
  same : titles.eraseDups = (titlesOf units).eraseDups

theorem TitleOf.merge {as bs : List String} {a b : Setting Json} {us vs : List (Setting Json)}
    (ha : TitleOf as a us) (hb : TitleOf bs b vs) : ∃ m,
      Setting.merge (some mergeTitles) (some a) (some b) = some m ∧
        TitleOf (if bs = as ∨ ∃ t ∈ as, bs = [t] then as else as ++ bs) m (us ++ vs) := by
  rw [ha.value, hb.value, ha.toIsTitles.merge hb.toIsTitles]
  refine ⟨_, rfl, ?_⟩
  have hsame : (as ++ bs).eraseDups = (titlesOf (us ++ vs)).eraseDups := by
    rw [titlesOf_append]
    exact eraseDups_append_congr ha.same hb.same
  split
  · rename_i hbs
    refine ⟨ha.toIsTitles, rfl, ?_, ?_⟩
    · rw [titlesOf_append]
      exact ha.sublist.trans (sublist_append_left _ _)
    · rw [← hsame, eraseDups_append_of_contains]
      rcases hbs with rfl | ⟨t, ht, rfl⟩ <;> simp_all
  · refine ⟨ha.toIsTitles.append hb.toIsTitles, rfl, ?_, hsame⟩
    rw [titlesOf_append]
    exact ha.sublist.append hb.sublist

/-- A title that was inferred for a single view. -/
def IsUnitTitle (u : Setting Json) : Prop :=
  ∃ t, u = ⟨.str t, false⟩ ∧ IsTitles [t]

theorem IsUnitTitle.titleOf {u : Setting Json} (h : IsUnitTitle u) :
    TitleOf [titleText u.value] u [u] := by
  obtain ⟨t, rfl, ht⟩ := h
  exact ⟨ht, by simp [titleText], .refl _, rfl⟩

namespace Nesting

/-- The titles that are joined in nested groups: a group that comes later adds all of its titles, unless
they are those so far, or a single one of them. -/
def joined : Nesting (Setting Json) → List String
  | .unit u => [titleText u.value]
  | .pair first second =>
    if second.joined = first.joined ∨ ∃ t ∈ first.joined, second.joined = [t] then first.joined
    else first.joined ++ second.joined

theorem exists_titleOf (n : Nesting (Setting Json)) (h : ∀ u ∈ n.units, IsUnitTitle u) :
    ∃ m, n.merged (some mergeTitles) = some m ∧ TitleOf n.joined m n.units :=
  n.exists_merged _ (P := fun m n => TitleOf n.joined m n.units) (fun u hu => (h u hu).titleOf)
    TitleOf.merge

end Nesting

theorem exists_titleOf_mergeAll {first : Setting Json} {rest : List (Setting Json)}
    (h : ∀ u ∈ first :: rest, IsUnitTitle u) :
    ∃ m, Setting.mergeAll (some mergeTitles) (first :: rest) = some m ∧
      TitleOf (titlesOf (first :: rest)).eraseDups m (first :: rest) := by
  refine Setting.exists_mergeAll _ (P := fun m us => TitleOf (titlesOf us).eraseDups m us) rest
    (h first mem_cons_self).titleOf fun {a us} u hu ha => ?_
  obtain ⟨m, hm, hjoined⟩ := ha.merge (h u (mem_cons_of_mem _ hu)).titleOf
  refine ⟨m, hm, ?_⟩
  rw [titlesOf_append, show titlesOf [u] = [titleText u.value] from rfl, eraseDups_concat,
    ← contains_eraseDups]
  convert hjoined using 1
  refine if_congr ?_ rfl rfl
  rw [contains_iff_mem]
  exact ⟨fun ht => .inr ⟨_, ht, rfl⟩, by grind⟩

/-- Take titles that were inferred for single views. A group joins them without repeats, in order of
first occurrence. Nested groups join titles in the same order and lose none, and they give the same
text exactly if they repeat none. -/
theorem titles_joined {tie : Option TieBreaker} (n : Nesting (Setting Json))
    (htie : tie = Axis.tieBreaker "title" ∨ tie = Legend.tieBreaker "title")
    (htitles : ∀ u ∈ n.units, IsUnitTitle u) :
    Setting.mergeAll tie n.units =
      some ⟨.str (", ".intercalate (titlesOf n.units).eraseDups), false⟩ ∧
    n.merged tie = some ⟨.str (", ".intercalate n.joined), false⟩ ∧
    n.joined.Sublist (titlesOf n.units) ∧ n.joined.eraseDups = (titlesOf n.units).eraseDups ∧
    (n.merged tie = Setting.mergeAll tie n.units ↔ n.joined.Nodup) := by
  obtain rfl : tie = some mergeTitles := by rcases htie with rfl | rfl <;> rfl
  obtain ⟨m, hm, hnested⟩ := n.exists_titleOf htitles
  obtain ⟨first, rest, hunits⟩ := n.exists_units
  rw [hunits] at htitles hnested ⊢
  obtain ⟨m', hm', hflat⟩ := exists_titleOf_mergeAll htitles
  rw [hm, hm', hnested.value, hflat.value]
  refine ⟨rfl, rfl, hnested.sublist, hnested.same, ?_⟩
  rw [← eraseDups_eq_self, hnested.same]
  refine ⟨fun h => ?_, fun h => by rw [h]⟩
  simp only [Option.some.injEq, Setting.mk.injEq, Json.str.injEq, and_true] at h
  exact (hnested.intercalate_inj hflat.toIsTitles h).symm

def titled (title : String) : Nesting (Setting Json) :=
  .unit ⟨.str title, false⟩

/-- A group inside of the first layer, with a title that comes again behind it. -/
def nestedTitles : Nesting (Setting Json) :=
  .pair (.pair (titled "sales") (titled "costs")) (titled "sales")

theorem titles_joined_nested : (∀ u ∈ nestedTitles.units, IsUnitTitle u) ∧
    Setting.mergeAll (Axis.tieBreaker "title") nestedTitles.units = some ⟨.str "sales, costs", false⟩ ∧
    nestedTitles.merged (Axis.tieBreaker "title") = some ⟨.str "sales, costs", false⟩ ∧
    nestedTitles.joined.Nodup := by
  have htitles : ∀ u ∈ nestedTitles.units, IsUnitTitle u := by
    simp only [nestedTitles, titled, Nesting.units, cons_append, nil_append,
      forall_mem_cons]
    refine ⟨⟨_, rfl, ?_⟩, ⟨_, rfl, ?_⟩, ⟨_, rfl, ?_⟩, by simp⟩ <;> constructor <;> decide
  obtain ⟨hflat, hnested, -, -, hsame⟩ := titles_joined nestedTitles (.inl rfl) htitles
  exact ⟨htitles, hflat, hnested, hsame.mp (hnested.trans hflat.symm)⟩

/-- The title of a group is new to the first title, although a part of it is not. -/
theorem nested_titles_repeat :
    (Nesting.pair (titled "sales") (.pair (titled "costs") (titled "sales"))).merged
      (Axis.tieBreaker "title") = some ⟨.str "sales, costs, sales", false⟩ ∧
    (Nesting.pair (.pair (titled "sales") (titled "costs")) (titled "sales")).merged
      (Axis.tieBreaker "title") = some ⟨.str "sales, costs", false⟩ := by
  constructor <;> rfl

end ChartPlan
