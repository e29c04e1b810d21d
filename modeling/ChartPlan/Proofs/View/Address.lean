import ChartPlan.Proofs.Chart.Repetition
import ChartPlan.Proofs.View.Naming
import Mathlib.Data.List.Nodup

/-!
# Addresses of views

A view without a name is called after the way that leads to it from the root, or from the copy around
it. Ways can be read off from names, so the only views that may share a name with others are copies.

* `Turn`, `Address`: the way to a view, and where it starts.
* `homes`: the addresses of the views of a chart; `View.names_build` are their names.
* `nodup_names_iff`: the views of an anonymous chart have different names exactly if no copy shares
  its name with another view.
-/

namespace ChartPlan

open List

/-! ### Ways -/

/-- A turn on the way to a view. -/
inductive Turn where
  | child
  | layer (i : Nat)
  | concat (i : Nat)

namespace Turn

/-- The turn to the view at a place below a view of some kind. -/
def into : Body → Nat → Turn
  | .facet _, _ => child
  | .layer, i => layer i
  | _, i => concat i

def text : Turn → String
  | child => "child"
  | layer i => "layer_" ++ toString i
  | concat i => "concat_" ++ toString i

def parts : Turn → List (List Char)
  | child => ["child".toList]
  | layer i => ["layer".toList, (toString i).toList]
  | concat i => ["concat".toList, (toString i).toList]

theorem isName_text (s : Turn) : IsName s.text := by
  cases s with
  | child => exact isName_of_all (by decide) (by decide)
  | _ i => exact isName_numbered (isName_of_all (by decide) (by decide)) (by decide) i

theorem pieces_text (s : Turn) : pieces s.text = s.parts := by
  have hnumbered : ∀ (word : String) (i : Nat), word ≠ "" → pieces word = [word.toList] →
      pieces (word ++ "_" ++ toString i) = [word.toList, (toString i).toList] := by
    intro word i hne hword
    rw [pieces_append hne (toString_ne_empty i), hword, pieces_toString]
    rfl
  cases s with
  | child => decide
  | layer i => exact hnumbered "layer" i (by decide) (by decide)
  | concat i => exact hnumbered "concat" i (by decide) (by decide)

theorem text_ne_empty (s : Turn) : s.text ≠ "" := by
  intro h
  have hparts := s.pieces_text
  rw [h] at hparts
  cases s <;> cases hparts

theorem eq_of_append_parts {a b : List (List Char)} {s t : Turn} (h : a ++ s.parts = b ++ t.parts) :
    a = b ∧ s = t := by
  have hnumber : ∀ (i : Nat) (word : String), (word.toList.all fun c => !c.isDigit) →
      (toString i).toList ≠ word.toList :=
    fun i word hword he => toString_ne_word i hword (String.toList_inj.mp he)
  -- a way that ends in a number does not end in `child`
  have hchild : ∀ {a b : List (List Char)} {word : List Char} {i : Nat},
      a ++ ["child".toList] ≠ b ++ [word, (toString i).toList] := by
    intro a b word i he
    rw [show b ++ [word, (toString i).toList] = (b ++ [word]) ++ [(toString i).toList] by simp] at he
    have hlast := singleton_inj.mp (append_inj' he rfl).2
    exact hnumber i "child" (by decide) hlast.symm
  cases s <;> cases t
  case child.child => exact ⟨append_cancel_right h, rfl⟩
  case child.layer => exact absurd h hchild
  case child.concat => exact absurd h hchild
  case layer.child => exact absurd h.symm hchild
  case concat.child => exact absurd h.symm hchild
  all_goals
    obtain ⟨hab, hparts⟩ := append_inj' h rfl
    simp only [parts, cons.injEq, and_true] at hparts
    obtain ⟨hword, hnum⟩ := hparts
    first
    | exact absurd hword (by decide)
    | exact ⟨hab, congrArg _ (toString_injective (String.toList_inj.mp hnum))⟩

end Turn

def wayParts : List Turn → List (List Char)
  | [] => []
  | s :: way => wayParts way ++ s.parts

theorem exists_way_of_parts {way rest : List Turn} {parts : List (List Char)}
    (h : wayParts way = parts ++ wayParts rest) :
    ∃ start, way = rest ++ start ∧ parts = wayParts start := by
  induction rest generalizing way with
  | nil => exact ⟨way, rfl, by simpa [wayParts] using h.symm⟩
  | cons t rest ih =>
    cases way with
    | nil =>
      have hparts : t.parts = [] := by simp_all [wayParts]
      cases t <;> cases hparts
    | cons s way =>
      rw [wayParts, wayParts, ← append_assoc] at h
      obtain ⟨hway, rfl⟩ := Turn.eq_of_append_parts h
      obtain ⟨start, rfl, hstart⟩ := ih hway
      exact ⟨start, rfl, hstart⟩

theorem wayParts_injective {way other : List Turn} (h : wayParts way = wayParts other) :
    way = other := by
  have hparts : wayParts way = [] ++ wayParts other := h
  obtain ⟨start, rfl, hstart⟩ := exists_way_of_parts hparts
  cases start with
  | nil => simp
  | cons s start =>
    have hparts : s.parts = [] := by simp_all [wayParts]
    cases s <;> cases hparts

theorem ne_nil_of_mem_wayParts {way : List Turn} {piece : List Char} (h : piece ∈ wayParts way) :
    piece ≠ [] := by
  induction way with
  | nil => cases h
  | cons s way ih =>
    rcases mem_append.mp h with h | h
    · exact ih h
    · cases s <;> simp only [Turn.parts, mem_cons, not_mem_nil, or_false] at h
      case child => rw [h]; decide
      all_goals rcases h with rfl | rfl
      case layer.inl | concat.inl => decide
      case layer.inr | concat.inr => simp

theorem head_wayParts {way : List Turn} {piece : List Char} (h : (wayParts way).head? = some piece) :
    piece ∈ ["child".toList, "layer".toList, "concat".toList] := by
  induction way with
  | nil => cases h
  | cons s way ih =>
    cases hway : wayParts way with
    | nil =>
      rw [wayParts, hway, nil_append] at h
      cases s <;> cases h <;> decide
    | cons first rest =>
      rw [wayParts, hway] at h
      rw [hway] at ih
      exact ih h

/-! ### Addresses -/

/-- Where a view is: in a copy or not, and on which way from the copy or from the root. -/
structure Address where
  copy : Option String := none
  /-- The last turn comes first. -/
  way : List Turn := []

namespace Address

def name (a : Address) : String :=
  a.way.foldr (fun turn name => nameIn name turn.text) (a.copy.getD "")

def turn (a : Address) (s : Turn) : Address :=
  ⟨a.copy, s :: a.way⟩

def settle (a : Address) (s : ViewSpec) : Address :=
  (s.name.map fun name => ⟨some (nameOf name), []⟩).getD a

theorem childName_eq (a : Address) (body : Body) (i : Nat) :
    View.childName body a.name i = (a.turn (.into body i)).name := by
  cases body <;> rfl

theorem name_settle (a : Address) (s : ViewSpec) :
    (a.settle s).name = (s.name.map nameOf).getD a.name := by
  unfold settle
  cases s.name <;> rfl

theorem pieces_name {a : Address} (h : IsName (a.copy.getD "")) :
    pieces a.name = pieces (a.copy.getD "") ++ wayParts a.way := by
  obtain ⟨copy, way⟩ := a
  induction way with
  | nil => exact (append_nil _).symm
  | cons s way ih =>
    have hname : IsName (Address.name ⟨copy, way⟩) := by
      cases way with
      | nil => exact h
      | cons t way => exact isName_nameIn _ _
    show pieces (nameIn (Address.name ⟨copy, way⟩) s.text) = _
    rw [pieces_nameIn hname s.isName_text s.text_ne_empty, ih h, s.pieces_text, append_assoc]
    rfl

end Address

namespace Chart

def copies (t : Chart) : List String :=
  (t.preorder.filterMap ViewSpec.name).map nameOf

mutual

/-- The addresses of the views of a chart that is reached at an address. -/
def homes (a : Address) : Chart → List Address
  | .node s ts => a.settle s :: homesAll (fun i => (a.settle s).turn (.into s.body i)) 0 ts

def homesAll (addresses : Nat → Address) : Nat → List Chart → List Address
  | _, [] => []
  | i, t :: rest => homes (addresses i) t ++ homesAll addresses (i + 1) rest

end

end Chart

open Chart Checked

namespace View

mutual

theorem names_buildNamed : (t : Chart) → (a : Address) →
    Delivers (fun views : Tree View =>
      views.preorder.map View.name = (homes a t).map Address.name) (buildNamed a.name t).outcome
  | .node s ts, a => by
    unfold buildNamed
    dsimp only
    rw [← a.name_settle s]
    refine fair_bind (proper_stackOf s.body).fair fun stack => ?_
    refine delivers_bind (names_buildAll ts 0 fun i => (a.settle s).childName_eq s.body i)
      fun views hviews => ?_
    exact congrArg _ hviews

theorem names_buildAll : (ts : List Chart) → (i : Nat) → {names : Nat → String} →
    {addresses : Nat → Address} → (∀ i, names i = (addresses i).name) →
    Delivers (fun views : List (Tree View) =>
      (Tree.preorders views).map View.name = (homesAll addresses i ts).map Address.name)
      (buildAll names i ts).outcome
  | [], _, _, _, _ => rfl
  | t :: rest, i, names, addresses, hnames => by
    unfold buildAll
    rw [hnames i]
    refine delivers_bind (names_buildNamed t (addresses i)) fun view hview => ?_
    refine delivers_bind (names_buildAll rest (i + 1) hnames) fun views hviews => ?_
    show (view.preorder ++ Tree.preorders views).map View.name = _
    rw [map_append, hview, hviews, homesAll, map_append]

end

theorem names_build {t : Chart} {views : Tree View} (h : (build t).outcome = .ok views) :
    views.preorder.map View.name = (homes {} t).map Address.name :=
  (names_buildNamed t {}).of_eq_ok h

end View

namespace Chart

/-! ### Different addresses -/

@[simp] theorem copies_node (s : ViewSpec) (ts : List Chart) :
    copies (.node s ts) =
      (s.name.map nameOf).toList ++ ((Tree.preorders ts).filterMap ViewSpec.name).map nameOf := by
  show ((s :: Tree.preorders ts).filterMap ViewSpec.name).map nameOf = _
  cases hs : s.name <;> simp [hs]

abbrev copiesAll (ts : List Chart) : List String :=
  ((Tree.preorders ts).filterMap ViewSpec.name).map nameOf

theorem copiesAll_cons (t : Chart) (rest : List Chart) :
    copiesAll (t :: rest) = copies t ++ copiesAll rest := by
  show ((t.preorder ++ Tree.preorders rest).filterMap ViewSpec.name).map nameOf = _
  rw [filterMap_append, map_append]
  rfl

/-- An address is on a way that goes on from another one, or in one of the copies. -/
def Beyond (a : Address) (names : List String) (b : Address) : Prop :=
  b.copy = a.copy ∧ a.way <:+ b.way ∨ ∃ name ∈ names, b.copy = some name

/-- An address is on a way that turns at place `i` or after it, or in one of the copies. -/
def BeyondFrom (a : Address) (body : Body) (i : Nat) (names : List String) (b : Address) : Prop :=
  (∃ j, i ≤ j ∧ b.copy = a.copy ∧ (Turn.into body j :: a.way) <:+ b.way) ∨
    ∃ name ∈ names, b.copy = some name

/-- Different addresses in a scope. -/
structure Owned (scope : Address → Prop) (homes : List Address) : Prop where
  nodup : homes.Nodup
  within : ∀ b ∈ homes, scope b

theorem Owned.append {left right scope : Address → Prop} {xs ys : List Address} (hx : Owned left xs)
    (hy : Owned right ys) (hapart : ∀ b ∈ ys, left b → ¬ right b) (hleft : ∀ b, left b → scope b)
    (hright : ∀ b, right b → scope b) : Owned scope (xs ++ ys) where
  nodup := by
    refine nodup_append.mpr ⟨hx.nodup, hy.nodup, ?_⟩
    rintro b hb _ hb' rfl
    exact hapart b hb' (hx.within b hb) (hy.within b hb')
  within b hb := (mem_append.mp hb).elim (fun hb => hleft b (hx.within b hb))
    fun hb => hright b (hy.within b hb)

theorem turn_into_injective {body : Body} (hbody : ∀ mapping, body ≠ .facet mapping) {i j : Nat}
    (h : Turn.into body i = Turn.into body j) : i = j := by
  cases body with
  | facet mapping => exact absurd rfl (hbody mapping)
  | _ => cases h; rfl

theorem turn_eq_of_suffix {way more : List Turn} {s t : Turn} (hs : s :: way <:+ more)
    (ht : t :: way <:+ more) : s = t := by
  have h := (suffix_of_suffix_length_le hs ht (Nat.le_refl _)).eq_of_length rfl
  cases h
  rfl

mutual

theorem owned_homes : (t : Chart) → (a : Address) → Anonymous t → (copies t).Nodup →
    (∀ name ∈ copies t, a.copy ≠ some name) → Owned (Beyond a (copies t)) (homes a t)
  | .node s ts, a, .node _ hone hts, hnodup, hfresh => by
    rw [copies_node] at hnodup hfresh ⊢
    have hhome : Beyond a ((s.name.map nameOf).toList ++ copiesAll ts) (a.settle s) := by
      unfold Address.settle
      cases s.name with
      | none => exact .inl ⟨rfl, suffix_refl _⟩
      | some name => exact .inr ⟨nameOf name, by simp, rfl⟩
    have hfresh' : ∀ name ∈ copiesAll ts, (a.settle s).copy ≠ some name := by
      intro name hname
      unfold Address.settle
      cases hs : s.name with
      | none => exact hfresh name (mem_append_right _ hname)
      | some own =>
        rw [hs] at hnodup
        intro he
        cases he
        exact (nodup_cons.mp hnodup).1 hname
    have hall := owned_homesAll ts (a.settle s) s.body 0 hts hone (nodup_append.mp hnodup).2.1
      hfresh'
    refine ⟨nodup_cons.mpr ⟨fun hmem => ?_, hall.nodup⟩, fun b hb => ?_⟩
    · rcases hall.within _ hmem with ⟨j, -, -, hsuffix⟩ | ⟨name, hname, he⟩
      · exact absurd hsuffix.length_le (Nat.not_succ_le_self _)
      · exact hfresh' name hname he
    · rcases mem_cons.mp hb with rfl | hb
      · exact hhome
      · rcases hall.within b hb with ⟨j, -, hcopy, hsuffix⟩ | ⟨name, hname, he⟩
        · rcases hhome with ⟨hhome, hway⟩ | ⟨name, hname, he⟩
          · exact .inl ⟨hcopy.trans hhome, hway.trans ((suffix_cons _ _).trans hsuffix)⟩
          · exact .inr ⟨name, hname, hcopy.trans he⟩
        · exact .inr ⟨name, mem_append_right _ hname, he⟩

theorem owned_homesAll : (ts : List Chart) → (a : Address) → (body : Body) → (i : Nat) →
    (∀ t ∈ ts, Anonymous t) → (∀ mapping, body = .facet mapping → ts.length ≤ 1) →
    (copiesAll ts).Nodup → (∀ name ∈ copiesAll ts, a.copy ≠ some name) →
    Owned (BeyondFrom a body i (copiesAll ts)) (homesAll (fun i => a.turn (.into body i)) i ts)
  | [], _, _, _, _, _, _, _ => ⟨nodup_nil, fun b hb => absurd hb not_mem_nil⟩
  | t :: rest, a, body, i, hts, hone, hnodup, hfresh => by
    rw [copiesAll_cons] at hnodup hfresh ⊢
    obtain ⟨hfirst, hrest, hapart⟩ := nodup_append.mp hnodup
    have hhead := owned_homes t (a.turn (.into body i)) (hts t mem_cons_self) hfirst
      fun name hname => hfresh name (mem_append_left _ hname)
    have htail := owned_homesAll rest a body (i + 1) (fun u hu => hts u (mem_cons_of_mem _ hu))
      (fun mapping hbody => Nat.le_trans (Nat.le_succ _) (hone mapping hbody)) hrest
      fun name hname => hfresh name (mem_append_right _ hname)
    refine hhead.append htail (fun b hb => ?_) (fun b hb => ?_) fun b hb => ?_
    · -- only one view is below a facet, so the turns of a second one are numbered
      have hbody : ∀ mapping, body ≠ .facet mapping := by
        intro mapping he
        have hlength := hone mapping he
        cases rest with
        | nil => exact absurd hb not_mem_nil
        | cons u rest => simp at hlength
      rintro (⟨hcopy, hsuffix⟩ | ⟨name, hname, he⟩) (⟨j, hj, hcopy', hsuffix'⟩ | ⟨name', hname', he'⟩)
      · cases turn_into_injective hbody (turn_eq_of_suffix hsuffix hsuffix')
        exact Nat.not_succ_le_self _ hj
      · exact hfresh name' (mem_append_right _ hname') (hcopy.symm.trans he')
      · exact hfresh name (mem_append_left _ hname) (hcopy'.symm.trans he)
      · exact hapart name hname name' hname' (Option.some.inj (he.symm.trans he'))
    · rcases hb with ⟨hcopy, hsuffix⟩ | ⟨name, hname, he⟩
      · exact .inl ⟨i, Nat.le_refl i, hcopy, hsuffix⟩
      · exact .inr ⟨name, mem_append_left _ hname, he⟩
    · rcases hb with ⟨j, hj, hrest⟩ | ⟨name, hname, he⟩
      · exact .inl ⟨j, Nat.le_of_succ_le hj, hrest⟩
      · exact .inr ⟨name, mem_append_right _ hname, he⟩

end

/-! ### Views above -/

mutual

theorem above_mem_homes : (t : Chart) → (a : Address) → {b : Address} → {s : Turn} →
    b.turn s ∈ homes a t → b ∈ homes a t ∨ b.turn s = a
  | .node view ts, a, b, s, hb => by
    rcases mem_cons.mp hb with hb | hb
    · unfold Address.settle at hb
      cases hname : view.name with
      | none =>
        rw [hname] at hb
        exact .inr hb
      | some name =>
        rw [hname] at hb
        exact absurd (congrArg Address.way hb) (cons_ne_nil _ _)
    · exact .inl ((above_mem_homesAll ts 0 hb).elim (mem_cons_of_mem _)
        fun he => he ▸ mem_cons_self)

theorem above_mem_homesAll : (ts : List Chart) → (i : Nat) → {a b : Address} → {body : Body} →
    {s : Turn} → b.turn s ∈ homesAll (fun i => a.turn (.into body i)) i ts →
    b ∈ homesAll (fun i => a.turn (.into body i)) i ts ∨ b = a
  | [], _, _, _, _, _, hb => absurd hb not_mem_nil
  | t :: rest, i, a, b, body, s, hb => by
    rcases mem_append.mp hb with hb | hb
    · rcases above_mem_homes t _ hb with hb | he
      · exact .inl (mem_append_left _ hb)
      · obtain ⟨copy, way⟩ := b
        cases he
        exact .inr rfl
    · exact (above_mem_homesAll rest (i + 1) hb).imp_left (mem_append_right _)

end

theorem mem_homes_of_append {copy : Option String} {way rest : List Turn}
    (h : ⟨copy, rest ++ way⟩ ∈ homes {} t) : ⟨copy, way⟩ ∈ homes {} t := by
  induction rest with
  | nil => exact h
  | cons s rest ih =>
    rcases above_mem_homes t {} (b := ⟨copy, rest ++ way⟩) h with h | he
    · exact ih h
    · cases he

/-! ### Names of copies -/

mutual

theorem copies_sublist_homes : (t : Chart) → (a : Address) →
    (copies t).Sublist ((homes a t).map Address.name)
  | .node s ts, a => by
    have hall := copiesAll_sublist_homesAll ts (fun i => (a.settle s).turn (.into s.body i)) 0
    rw [copies_node]
    show List.Sublist _ ((a.settle s).name :: _)
    rw [a.name_settle s]
    cases s.name with
    | none => exact hall.cons _
    | some name => exact hall.cons_cons _

theorem copiesAll_sublist_homesAll : (ts : List Chart) → (addresses : Nat → Address) → (i : Nat) →
    (copiesAll ts).Sublist ((homesAll addresses i ts).map Address.name)
  | [], _, _ => List.Sublist.refl _
  | t :: rest, addresses, i => by
    rw [copiesAll_cons, homesAll, map_append]
    exact (copies_sublist_homes t _).append (copiesAll_sublist_homesAll rest addresses (i + 1))

end

theorem Anonymous.mem_copies {t : Chart} (ht : Anonymous t) {name : String} (h : name ∈ copies t) :
    ∃ binding, name = nameOf (copyName binding) := by
  obtain ⟨own, hown, rfl⟩ := mem_map.mp h
  obtain ⟨s, hs, hname⟩ := mem_filterMap.mp hown
  clear h hown
  induction ht with
  | node hnames _ _ ih =>
    rcases mem_cons.mp hs with rfl | hs
    · obtain ⟨binding, rfl⟩ := hnames own hname
      exact ⟨binding, rfl⟩
    · obtain ⟨t, ht, hs⟩ := Tree.mem_preorders.mp hs
      exact ih t ht hs

theorem toList_nameOf_append {stem : String} (h : IsName stem) (hne : stem ≠ "") (rest : String) :
    (nameOf (stem ++ rest)).toList =
      stem.toList ++ rest.toList.map fun c => if isNameChar c then c else '_' := by
  obtain ⟨c, tail, hlist⟩ := exists_cons_of_ne_nil (show stem.toList ≠ [] by simpa using hne)
  have hmap : stem.toList.map (fun c => if isNameChar c then c else '_') = stem.toList :=
    (map_congr_left fun c hc => if_pos (h.chars c hc)).trans (map_id _)
  unfold nameOf nameChars
  rw [String.toList_append, map_append, hmap, String.toList_ofList, hlist]
  have hdigit : c.isDigit = false := h.head c (hlist ▸ rfl)
  simp [hdigit]

theorem pieces_copyName (binding : Dict String) :
    ∃ more, pieces (nameOf (copyName binding)) = "child".toList :: [] :: more := by
  have hchild : ∀ rest : String, (rest.toList = [] ∨ ∃ tail, rest.toList = '_' :: tail) →
      ∃ more, pieces (nameOf ("child_" ++ rest)) = "child".toList :: [] :: more := by
    intro rest hrest
    have hstem : IsName "child_" := isName_of_all (by decide) (by decide)
    have hlist := toList_nameOf_append hstem (by decide) rest
    have hne : nameOf ("child_" ++ rest) ≠ "" := fun he => by
      rw [he] at hlist
      cases hlist
    rw [pieces_of_ne hne, hlist]
    show ∃ more, ("child".toList ++ '_' :: List.map _ rest.toList).splitOn '_' = _
    rw [splitOn_append_cons_self]
    rcases hrest with hrest | ⟨tail, hrest⟩
    · rw [hrest]
      exact ⟨[], by decide⟩
    · rw [hrest, map_cons, if_pos isNameChar_underscore]
      exact ⟨_, congrArg (["child".toList] ++ ·) (splitOn_append_cons_self [] _)⟩
  refine hchild _ ?_
  cases binding with
  | nil => exact .inl rfl
  | cons entry binding =>
    obtain ⟨direction, field⟩ := entry
    simp

/-! ### Different names -/

variable {t : Chart}

def CopiesApart (t : Chart) (names : List String) : Prop :=
  ∀ name ∈ copies t, names.count name = 1

theorem eq_of_count_map {α β : Type} [BEq β] [LawfulBEq β] {f : α → β} {l : List α} {y : β}
    (hcount : (l.map f).count y = 1) {a b : α} (ha : a ∈ l) (hb : b ∈ l) (hfa : f a = y)
    (hfb : f b = y) : a = b := by
  rw [List.count, countP_map, countP_eq_length_filter] at hcount
  obtain ⟨c, hc⟩ := length_eq_one_iff.mp hcount
  have hmem : ∀ {d}, d ∈ l → f d = y → d = c := fun {d} hd hfd =>
    mem_singleton.mp (hc ▸ mem_filter.mpr ⟨hd, by simp [hfd]⟩)
  exact (hmem ha hfa).trans (hmem hb hfb).symm

theorem nodup_copies (h : CopiesApart t ((homes {} t).map Address.name)) : (copies t).Nodup := by
  refine nodup_iff_count_le_one.mpr fun name => ?_
  by_cases hname : name ∈ copies t
  · exact h name hname ▸ (copies_sublist_homes t {}).count_le name
  · rw [count_eq_zero.mpr hname]
    exact Nat.zero_le 1

section Apart

variable (hanon : Anonymous t) (hapart : CopiesApart t ((homes {} t).map Address.name))

include hanon hapart

theorem copy_of_mem_homes {a : Address} (ha : a ∈ homes {} t) :
    a.copy = none ∨ ∃ name ∈ copies t, a.copy = some name := by
  refine ((owned_homes t {} hanon (nodup_copies hapart) fun name _ => ?_).within a ha).imp_left And.left
  exact nofun

theorem pieces_of_mem_homes {a : Address} (ha : a ∈ homes {} t) :
    pieces a.name = pieces (a.copy.getD "") ++ wayParts a.way := by
  refine a.pieces_name ?_
  rcases copy_of_mem_homes hanon hapart ha with hcopy | ⟨name, hname, hcopy⟩
  · rw [hcopy]
    exact isName_empty
  · obtain ⟨binding, rfl⟩ := hanon.mem_copies hname
    rw [hcopy]
    exact isName_nameOf _

theorem eq_of_pieces_append {c d : String} {way other : List Turn} (hc : ⟨some c, way⟩ ∈ homes {} t)
    (hd : ⟨some d, other⟩ ∈ homes {} t) {parts : List (List Char)} (hparts : pieces d = pieces c ++ parts)
    (hway : wayParts way = parts ++ wayParts other) : c = d ∧ way = other := by
  obtain ⟨start, rfl, rfl⟩ := exists_way_of_parts hway
  have hstart : ⟨some c, start⟩ ∈ homes {} t := mem_homes_of_append hc
  have hother : ⟨some d, other ++ []⟩ ∈ homes {} t := by simpa using hd
  have hcopy : ⟨some d, []⟩ ∈ homes {} t := mem_homes_of_append hother
  have hmem : d ∈ copies t := by
    rcases copy_of_mem_homes hanon hapart hd with hnone | ⟨name, hname, he⟩
    · cases hnone
    · cases he
      exact hname
  have hname : Address.name ⟨some c, start⟩ = d :=
    pieces_injective ((pieces_of_mem_homes hanon hapart hstart).trans hparts.symm)
  cases eq_of_count_map (hapart d hmem) hstart hcopy hname rfl
  exact ⟨rfl, append_nil _⟩

theorem eq_of_name_eq {a b : Address} (ha : a ∈ homes {} t) (hb : b ∈ homes {} t)
    (hname : a.name = b.name) : a = b := by
  have hpieces := congrArg pieces hname
  rw [pieces_of_mem_homes hanon hapart ha, pieces_of_mem_homes hanon hapart hb] at hpieces
  -- an address in a copy is told by an empty piece
  have hempty : ∀ {c : String} {way other : List Turn}, c ∈ copies t →
      pieces c ++ wayParts way ≠ wayParts other := by
    intro c way other hc he
    obtain ⟨binding, rfl⟩ := hanon.mem_copies hc
    obtain ⟨more, hmore⟩ := pieces_copyName binding
    have hnil : [] ∈ wayParts other := by
      rw [← he, hmore]
      simp
    exact ne_nil_of_mem_wayParts hnil rfl
  obtain ⟨copy, way⟩ := a
  obtain ⟨copy', way'⟩ := b
  rcases copy_of_mem_homes hanon hapart ha with rfl | ⟨c, hc, rfl⟩ <;>
    rcases copy_of_mem_homes hanon hapart hb with rfl | ⟨d, hd, rfl⟩
  · exact congrArg _ (wayParts_injective hpieces)
  · exact absurd hpieces.symm (hempty hd)
  · exact absurd hpieces (hempty hc)
  · rcases append_eq_append_iff.mp hpieces with ⟨parts, hd', hway⟩ | ⟨parts, hc', hway⟩
    · obtain ⟨rfl, rfl⟩ := eq_of_pieces_append hanon hapart ha hb hd' hway
      rfl
    · obtain ⟨rfl, rfl⟩ := eq_of_pieces_append hanon hapart hb ha hc' hway
      rfl

theorem unscaled_of_mem_homes {a : Address} (ha : a ∈ homes {} t) :
    (pieces a.name).head? ≠ some "scale".toList := by
  intro hhead
  have hfirst : "scale".toList ∈ ["child".toList, "layer".toList, "concat".toList] := by
    rw [pieces_of_mem_homes hanon hapart ha] at hhead
    rcases copy_of_mem_homes hanon hapart ha with hcopy | ⟨name, hname, hcopy⟩
    · rw [hcopy] at hhead
      exact head_wayParts hhead
    · obtain ⟨binding, rfl⟩ := hanon.mem_copies hname
      obtain ⟨more, hmore⟩ := pieces_copyName binding
      rw [hcopy, Option.getD_some, hmore] at hhead
      cases hhead
  exact absurd hfirst (by decide)

end Apart

/-- The views of an anonymous chart have different names exactly if each copy is the only view of its
name. -/
theorem nodup_names_iff (hanon : Anonymous t) :
    ((homes {} t).map Address.name).Nodup ↔ CopiesApart t ((homes {} t).map Address.name) := by
  constructor
  · intro hnodup name hname
    exact count_eq_one_of_mem hnodup ((copies_sublist_homes t {}).subset hname)
  · intro hapart
    have hhomes := (owned_homes t {} hanon (nodup_copies hapart) fun _ _ => nofun).nodup
    exact hhomes.map_on fun a ha b hb => eq_of_name_eq hanon hapart ha hb

end Chart

end ChartPlan
