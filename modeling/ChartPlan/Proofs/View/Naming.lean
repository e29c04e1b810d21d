import ChartPlan.Flow.Pass.Facets
import ChartPlan.Proofs.Chart.Refusal
import ChartPlan.Proofs.Json.Text

/-!
# Names inside views

The outputs of a view are called after the view. What a name consists of can be read off from its
pieces between underscores, so the outputs of different views have different names, and so have the
outputs of one view.

* `IsName`: the texts that `nameOf` leaves as they are; all views have such names.
* `pieces`: the parts of a name between underscores.
* `nameIn_slot_inj`: the name of an output tells the view and the output.
* `nameIn_slot_ne_scale`: it begins with the stem of copies only if the name of the view does.
-/

namespace ChartPlan

open List

/-! ### Names -/

/-- A text that can be the name of a dataset or a signal. -/
structure IsName (text : String) : Prop where
  chars : ∀ c ∈ text.toList, isNameChar c
  head : ∀ c ∈ text.toList.head?, c.isDigit = false

theorem isName_of_all {text : String} (h : text.toList.all isNameChar)
    (hhead : text.toList.head?.all fun c => !c.isDigit) : IsName text where
  chars := all_eq_true.mp h
  head c hc := by
    rw [Option.mem_def.mp hc] at hhead
    simpa using hhead

theorem isName_empty : IsName "" :=
  isName_of_all rfl rfl

theorem isNameChar_underscore : isNameChar '_' := by
  decide

theorem isName_nameOf (text : String) : IsName (nameOf text) := by
  have hchars : ∀ c ∈ text.toList.map (fun c => if isNameChar c then c else '_'), isNameChar c := by
    intro c hc
    obtain ⟨a, -, rfl⟩ := mem_map.mp hc
    split
    · assumption
    · exact isNameChar_underscore
  unfold nameOf nameChars
  generalize text.toList.map (fun c => if isNameChar c then c else '_') = out at hchars
  cases out with
  | nil => exact isName_empty
  | cons c rest =>
    dsimp only
    split
    · refine ⟨?_, ?_⟩ <;> rw [String.toList_ofList]
      · simpa [isNameChar_underscore] using hchars
      · simp
    · rename_i hdigit
      refine ⟨?_, ?_⟩ <;> rw [String.toList_ofList]
      · exact hchars
      · simpa using hdigit

theorem IsName.nameOf_eq {text : String} (h : IsName text) : nameOf text = text := by
  have hmap : text.toList.map (fun c => if isNameChar c then c else '_') = text.toList :=
    map_congr_left (g := id) (fun c hc => if_pos (h.chars c hc)) |>.trans (map_id _)
  unfold nameOf nameChars
  rw [hmap]
  have hhead := h.head
  dsimp only
  split
  · rename_i c rest hlist
    rw [hlist] at hhead
    rw [if_neg (by simpa using hhead c rfl)]
    exact String.ofList_toList
  · rename_i hlist
    exact (congrArg String.ofList hlist).symm.trans String.ofList_toList

theorem isName_nameIn (view text : String) : IsName (nameIn view text) := by
  unfold nameIn
  split <;> exact isName_nameOf _

theorem nameIn_empty {text : String} (ht : IsName text) : nameIn "" text = text :=
  ht.nameOf_eq

theorem IsName.nameIn_eq {view text : String} (h : IsName view) (hne : view ≠ "") (ht : IsName text) :
    nameIn view text = view ++ "_" ++ text := by
  have hview : view.isEmpty = false := by simpa using hne
  unfold nameIn
  rw [hview]
  refine IsName.nameOf_eq ⟨fun c hc => ?_, fun c hc => h.head c ?_⟩
  · simp only [String.toList_append, mem_append] at hc
    rcases hc with (hc | hc) | hc
    · exact h.chars c hc
    · rw [show c = '_' by simpa using hc]
      exact isNameChar_underscore
    · exact ht.chars c hc
  · have hlist : view.toList ≠ [] := by simpa using hne
    rwa [String.toList_append, String.toList_append, append_assoc,
      List.head?_append_of_ne_nil _ hlist] at hc

/-! ### Pieces -/

def pieces (name : String) : List (List Char) :=
  if name.isEmpty then [] else name.toList.splitOn '_'

theorem pieces_of_ne {name : String} (h : name ≠ "") : pieces name = name.toList.splitOn '_' := by
  have hempty : name.isEmpty = false := by simpa using h
  unfold pieces
  rw [hempty]
  rfl

theorem pieces_ne_nil {name : String} (h : name ≠ "") : pieces name ≠ [] := by
  rw [pieces_of_ne h]
  exact splitOn_ne_nil _ _

theorem pieces_injective {a b : String} (h : pieces a = pieces b) : a = b := by
  by_cases ha : a = ""
  · by_contra hne
    rw [ha] at h hne
    exact pieces_ne_nil (Ne.symm hne) h.symm
  · by_cases hb : b = ""
    · rw [hb] at h
      exact absurd h (pieces_ne_nil ha)
    · rw [pieces_of_ne ha, pieces_of_ne hb] at h
      have ha' : ['_'].intercalate (a.toList.splitOn '_') = a.toList := intercalate_splitOn '_'
      rw [← String.toList_inj, ← ha', h, intercalate_splitOn]

theorem pieces_append {a b : String} (ha : a ≠ "") (hb : b ≠ "") :
    pieces (a ++ "_" ++ b) = pieces a ++ pieces b := by
  have hne : a ++ "_" ++ b ≠ "" := fun h => by
    have := congrArg String.toList h
    simp at this
  rw [pieces_of_ne ha, pieces_of_ne hb, pieces_of_ne hne, String.toList_append, String.toList_append]
  exact (congrArg _ (append_assoc _ _ _)).trans (splitOn_append_cons_self _ _)

theorem pieces_nameIn {view text : String} (h : IsName view) (ht : IsName text) (hne : text ≠ "") :
    pieces (nameIn view text) = pieces view ++ pieces text := by
  by_cases hview : view = ""
  · rw [hview, nameIn_empty ht]
    rfl
  · rw [h.nameIn_eq hview ht, pieces_append hview hne]

/-! ### Outputs of a view -/

/-- The outputs and the facet of a view. -/
inductive Slot where
  | raw
  | main
  | facet
  /-- The rows of a lookup, by its number among those with a data block. -/
  | lookup (k : Nat)
deriving DecidableEq

namespace Slot

def text : Slot → String
  | raw => "raw"
  | main => "main"
  | facet => "facet"
  | lookup k => "lookup_" ++ toString k

def last : Slot → String
  | raw => "raw"
  | main => "main"
  | facet => "facet"
  | lookup k => toString k

end Slot

theorem toString_ne_empty (k : Nat) : toString k ≠ "" := by
  simp

theorem pieces_toString (k : Nat) : pieces (toString k) = [(toString k).toList] := by
  rw [pieces_of_ne (toString_ne_empty k)]
  refine splitOn_eq_singleton fun h => ?_
  exact absurd (isDigit_of_mem_toString h) (by decide)

theorem isName_append {a b : String} (ha : IsName a) (hne : a ≠ "") (hb : ∀ c ∈ b.toList, isNameChar c) :
    IsName (a ++ b) where
  chars c hc := by
    rw [String.toList_append] at hc
    exact (mem_append.mp hc).elim (ha.chars c) (hb c)
  head c hc := by
    have hlist : a.toList ≠ [] := by simpa using hne
    rw [String.toList_append, List.head?_append_of_ne_nil _ hlist] at hc
    exact ha.head c hc

theorem isName_numbered {stem : String} (h : IsName stem) (hne : stem ≠ "") (k : Nat) :
    IsName (stem ++ toString k) := by
  refine isName_append h hne fun c hc => ?_
  unfold isNameChar Char.isAlphanum
  rw [isDigit_of_mem_toString hc]
  simp

theorem toString_ne_word (k : Nat) {word : String} (h : word.toList.all fun c => !c.isDigit) :
    toString k ≠ word := by
  intro he
  obtain ⟨c, rest, hlist⟩ := exists_cons_of_ne_nil
    (show (toString k).toList ≠ [] by simp)
  have hdigit : c.isDigit := isDigit_of_mem_toString (k := k) (hlist ▸ mem_cons_self)
  have hletter := all_eq_true.mp h c (he ▸ hlist ▸ mem_cons_self)
  rw [hdigit] at hletter
  cases hletter

namespace Slot

theorem isName_text (s : Slot) : IsName s.text := by
  cases s with
  | lookup k =>
    exact isName_numbered (isName_of_all (by decide) (by decide)) (by decide) k
  | _ => exact isName_of_all (by decide) (by decide)

theorem text_ne_empty (s : Slot) : s.text ≠ "" := by
  cases s with
  | lookup k =>
    intro h
    have := congrArg String.toList h
    simp [text] at this
  | _ => decide

def leading : Slot → List (List Char)
  | lookup _ => ["lookup".toList]
  | _ => []

theorem pieces_text (s : Slot) : pieces s.text = s.leading ++ [s.last.toList] := by
  cases s with
  | lookup k =>
    have hsplit : Slot.text (lookup k) = "lookup" ++ "_" ++ toString k := rfl
    rw [hsplit, pieces_append (by decide) (toString_ne_empty k), pieces_toString]
    rfl
  | _ => decide

theorem last_injective {s t : Slot} (h : s.last = t.last) : s = t := by
  cases s <;> cases t <;> first
    | rfl
    | exact absurd h (by decide)
    | exact absurd h (toString_ne_word _ (by decide))
    | exact absurd h.symm (toString_ne_word _ (by decide))
    | exact congrArg lookup (toString_injective h)

end Slot

theorem nameIn_slot_inj {a b : String} {s t : Slot} (ha : IsName a) (hb : IsName b)
    (h : nameIn a s.text = nameIn b t.text) : a = b ∧ s = t := by
  have hpieces := congrArg pieces h
  rw [pieces_nameIn ha s.isName_text s.text_ne_empty, pieces_nameIn hb t.isName_text t.text_ne_empty,
    s.pieces_text, t.pieces_text, ← append_assoc, ← append_assoc] at hpieces
  obtain ⟨hrest, hlast⟩ := append_inj' hpieces rfl
  have hst : s = t := Slot.last_injective (String.toList_inj.mp (singleton_inj.mp hlast))
  rw [hst] at hrest
  exact ⟨pieces_injective (append_cancel_right hrest), hst⟩

theorem nameIn_slot_ne_store {view : String} (h : IsName view) (s : Slot) (selection : String) :
    nameIn view s.text ≠ selection ++ "_store" := by
  -- The last characters differ.
  have hlast : ∀ c, s.text.toList.getLast? = some c → c ≠ 'e' := by
    intro c hc
    cases s with
    | lookup k =>
      rintro rfl
      have hmem : 'e' ∈ (toString k).toList := by
        rw [Slot.text, String.toList_append, List.getLast?_append_of_ne_nil _ (by simp)] at hc
        exact mem_of_getLast? hc
      exact absurd (isDigit_of_mem_toString hmem) (by decide)
    | _ =>
      cases hc
      decide
  have htext : s.text.toList ≠ [] := by simpa using s.text_ne_empty
  intro he
  have hend := congrArg (fun text => text.toList.getLast?) he
  rw [String.toList_append, List.getLast?_append_of_ne_nil _ (by decide)] at hend
  refine hlast 'e' ?_ rfl
  rw [show 'e' = "_store".toList.getLast (by decide) from rfl, ← List.getLast?_eq_getLast_of_ne_nil,
    ← hend]
  by_cases hempty : view = ""
  · rw [hempty, nameIn_empty s.isName_text]
  · rw [h.nameIn_eq hempty s.isName_text, String.toList_append,
      List.getLast?_append_of_ne_nil _ htext]

theorem nameIn_slot_ne_scale {view : String} (h : IsName view) (hview : view ≠ "scale")
    (hstem : ∀ rest, view ≠ Flow.scaleStem ++ rest) (s : Slot) (rest : String) :
    nameIn view s.text ≠ Flow.scaleStem ++ rest := by
  intro he
  by_cases hempty : view = ""
  · rw [hempty, nameIn_empty s.isName_text] at he
    have hhead := congrArg (fun text => text.toList.head?) he
    cases s <;> simp [Slot.text, Flow.scaleStem] at hhead
  · rw [h.nameIn_eq hempty s.isName_text] at he
    have hlist := congrArg String.toList he
    simp only [Flow.scaleStem, String.toList_append, append_assoc] at hlist
    -- The view is at least as long as the word in front of the underscore, and begins with it.
    rcases append_eq_append_iff.mp hlist with ⟨more, hscale, hrest⟩ | ⟨more, hmore, -⟩
    · have hscale' : "scale".toList ++ ['_'] = view.toList ++ more := hscale
      rcases more with _ | ⟨c, more⟩
      · refine hstem "" (String.toList_inj.mp ?_)
        simpa [Flow.scaleStem] using hscale.symm
      · have hc : c = '_' := (cons_eq_cons.mp hrest).1.symm
        subst hc
        rcases more.eq_nil_or_concat with rfl | ⟨init, last, rfl⟩
        · exact hview (String.toList_inj.mp (append_inj' hscale' rfl).1.symm)
        · have hmem : '_' ∈ "scale".toList := by
            rw [concat_eq_append, ← cons_append, ← append_assoc] at hscale'
            rw [(append_inj' hscale' rfl).1]
            simp
          exact absurd hmem (by decide)
    · refine hstem (String.ofList more) (String.toList_inj.mp ?_)
      rw [String.toList_append, String.toList_ofList]
      exact hmore

/-! ### Views -/

namespace View

open Checked

theorem isName_childName (body : Body) (parent : String) (i : Nat) :
    IsName (childName body parent i) := by
  unfold childName
  split <;> exact isName_nameIn _ _

mutual

theorem forall_buildNamed {P : View → Prop}
    (hP : ∀ s name stack, IsName name → P (ofSpec s name stack)) : (chart : Chart) →
    {given : String} → IsName given →
    Delivers (fun t : Tree View => ∀ v ∈ t.preorder, P v) (buildNamed given chart).outcome
  | .node s children, given, hgiven => by
    unfold buildNamed
    have hname : IsName ((s.name.map nameOf).getD given) := by
      cases s.name with
      | none => exact hgiven
      | some name => exact isName_nameOf name
    refine fair_bind (proper_stackOf s.body).fair fun stack => ?_
    refine delivers_bind (forall_buildAll hP children 0 (isName_childName s.body _)) fun ts hts => ?_
    intro v hv
    rcases mem_cons.mp hv with rfl | hv
    · exact hP s _ stack hname
    · exact hts v hv

theorem forall_buildAll {P : View → Prop}
    (hP : ∀ s name stack, IsName name → P (ofSpec s name stack)) : (charts : List Chart) → (i : Nat) →
    {names : Nat → String} → (∀ i, IsName (names i)) →
    Delivers (fun ts : List (Tree View) => ∀ v ∈ Tree.preorders ts, P v) (buildAll names i charts).outcome
  | [], _, _, _ => fun _ hv => absurd hv not_mem_nil
  | c :: rest, i, names, hnames => by
    unfold buildAll
    refine delivers_bind (forall_buildNamed hP c (hnames i)) fun t ht => ?_
    refine delivers_bind (forall_buildAll hP rest (i + 1) hnames) fun ts hts => ?_
    intro v hv
    exact (mem_append.mp hv).elim (ht v) (hts v)

end

theorem isName_build (chart : Chart) :
    Delivers (fun t : Tree View => ∀ v ∈ t.preorder, IsName v.name) (build chart).outcome :=
  forall_buildNamed (fun _ _ _ hname => hname) chart isName_empty

theorem ofSpec_build (chart : Chart) :
    Delivers (fun t : Tree View => ∀ v ∈ t.preorder, ∃ s name stack, v = ofSpec s name stack)
      (build chart).outcome :=
  forall_buildNamed (fun s name stack _ => ⟨s, name, stack, rfl⟩) chart isName_empty

end View

end ChartPlan
