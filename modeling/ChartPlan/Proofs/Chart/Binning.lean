import ChartPlan.Chart.Encoding
import ChartPlan.Proofs.Json.Text

/-!
# Keys of binnings

The key of a binning is made of words between underscores: the names of its parameters and their
values. Since every sign becomes an underscore, other binnings may be made of the same words, but not
when names and values are words themselves.

* `Bin.words`: the words of the parameters.
* `Bin.keys_differ`: binnings by plain parameters differ in their keys and in their output names.
-/

namespace ChartPlan.Bin

open List

/-- Values whose text is a word: natural numbers and truth values. -/
inductive Plain : Json → Prop
  | number (n : Nat) : Plain (.nat n)
  | flag (b : Bool) : Plain (.bool b)

def IsWord (text : List Char) : Prop :=
  ∀ c ∈ text, c.isAlphanum

instance (text : List Char) : Decidable (IsWord text) :=
  decidable_of_iff (text.all Char.isAlphanum) all_eq_true

/-- The names of all parameters are made of letters and digits, and the values are plain. -/
def ArePlain (params : Dict Json) : Prop :=
  ∀ entry ∈ params, IsWord entry.1.toList ∧ Plain entry.2

theorem isDigit_chars_nat (n : Nat) : ∀ c ∈ (Json.nat n).chars, c.isDigit :=
  fun _ hc => isDigit_of_mem_toString (k := n) hc

theorem Plain.isWord {v : Json} (h : Plain v) : IsWord v.chars := by
  cases h with
  | number n => exact fun c hc => by simp [Char.isAlphanum, isDigit_chars_nat n c hc]
  | flag b => cases b <;> decide

theorem Plain.chars_inj {v w : Json} (hv : Plain v) (hw : Plain w) (h : v.chars = w.chars) : v = w := by
  have hflag : ∀ (n : Nat) (b : Bool), (Json.nat n).chars ≠ (Json.bool b).chars := by
    intro n b h
    have hdigits := isDigit_chars_nat n
    rw [h] at hdigits
    cases b <;> exact absurd (all_eq_true.mpr hdigits) (by decide)
  cases hv with
  | number m =>
    cases hw with
    | number n => rw [Json.toText_nat_inj (String.toList_inj.mp h)]
    | flag b => exact absurd h (hflag m b)
  | flag b =>
    cases hw with
    | number n => exact absurd h.symm (hflag n b)
    | flag c => cases b <;> cases c <;> first | rfl | exact absurd h (by decide)

/-! ### Words -/

def words (params : Dict Json) : List (List Char) :=
  params.flatMap fun entry => [entry.1.toList, entry.2.chars]

variable {p q : Dict Json}

theorem words_inj (hp : ArePlain p) (hq : ArePlain q) (h : words p = words q) : p = q := by
  induction p generalizing q with
  | nil =>
    cases q with
    | nil => rfl
    | cons entry rest => cases h
  | cons entry rest ih =>
    cases q with
    | nil => cases h
    | cons other more =>
      obtain ⟨hentry, hrest⟩ := forall_mem_cons.mp hp
      obtain ⟨hother, hmore⟩ := forall_mem_cons.mp hq
      obtain ⟨hname, h⟩ := cons.inj h
      obtain ⟨hvalue, h⟩ := cons.inj h
      have hsame := Prod.ext (String.toList_inj.mp hname) (hentry.2.chars_inj hother.2 hvalue)
      rw [hsame, ih hrest hmore h]

theorem toList_nameOf {k : String} {v : Json} (hk : IsWord k.toList) (hv : Plain v) :
    (nameOf ("_" ++ k ++ "_" ++ paramText v)).toList = [k.toList, v.chars].flatMap ('_' :: ·) := by
  have hsame : ∀ {t : List Char}, IsWord t → t.map (fun c => if isNameChar c then c else '_') = t :=
    fun {t} ht => (map_congr_left fun c hc => by simp [isNameChar, ht c hc]).trans t.map_id
  have htext : ("_" ++ k ++ "_" ++ paramText v).toList = '_' :: (k.toList ++ '_' :: v.chars) := by
    cases hv <;> simp [paramText, Json.nat, Json.chars]
  unfold nameOf
  rw [String.toList_ofList, htext]
  show '_' :: (k.toList ++ '_' :: v.chars).map _ = _
  rw [map_append, map_cons, hsame hk, hsame hv.isWord]
  simp [isNameChar]

theorem toList_text (h : ArePlain p) :
    (text p).toList = "bin".toList ++ (words p).flatMap ('_' :: ·) := by
  unfold text words
  rw [String.toList_append, flatMap_assoc]
  congr 1
  induction p with
  | nil => rfl
  | cons entry rest ih =>
    obtain ⟨⟨hk, hv⟩, hrest⟩ := forall_mem_cons.mp h
    rw [map_cons, String.join_cons, String.toList_append, flatMap_cons, ih hrest]
    exact congrArg (· ++ _) (toList_nameOf hk hv)

theorem text_inj (hp : ArePlain p) (hq : ArePlain q) (h : text p = text q) : p = q := by
  have hplain : ∀ {p : Dict Json}, ArePlain p → ∀ word ∈ [] :: words p, '_' ∉ word := by
    intro p hp word hword hmem
    have hisWord : IsWord word := by
      rcases mem_cons.mp hword with rfl | hword
      · exact fun c hc => absurd hc not_mem_nil
      · obtain ⟨entry, hentry, hword⟩ := mem_flatMap.mp hword
        obtain ⟨hk, hv⟩ := hp entry hentry
        simp only [mem_cons, not_mem_nil, or_false] at hword
        rcases hword with rfl | rfl
        · exact hk
        · exact hv.isWord
    exact absurd (hisWord _ hmem) (by decide)
  have hjoin : ['_'].intercalate ([] :: words p) = ['_'].intercalate ([] :: words q) := by
    rw [Json.intercalate_cons, Json.intercalate_cons]
    have hchars := congrArg String.toList h
    rw [toList_text hp, toList_text hq] at hchars
    exact append_cancel_left hchars
  have hwords := congrArg (List.splitOn '_') hjoin
  rw [splitOn_intercalate '_' (hplain hp) (by simp),
    splitOn_intercalate '_' (hplain hq) (by simp)] at hwords
  exact words_inj hp hq (cons.inj hwords).2

/-- Different plain parameters make different keys for a field, and different output names for a
definition that does not aggregate. -/
theorem keys_differ (hp : ArePlain p) (hq : ArePlain q) (hne : p ≠ q) :
    (∀ field, key p field ≠ key q field) ∧
      ∀ d : ChannelDef, d.aggregate = none →
        { d with bin := some (.by p) }.outputName ≠ { d with bin := some (.by q) }.outputName := by
  have hkey : ∀ field, text p ++ "_" ++ field ≠ text q ++ "_" ++ field := fun field h =>
    hne (text_inj hp hq ((String.append_left_inj _).mp ((String.append_left_inj _).mp h)))
  refine ⟨hkey, fun d hd => ?_⟩
  unfold ChannelDef.outputName
  simp only [hd, ChannelDef.binParams?]
  exact hkey d.flatField

theorem keys_differ_niceBins :
    key [("maxbins", .nat 10), ("nice", .bool true)] "size" ≠
      key [("maxbins", .nat 10), ("nice", .bool false)] "size" := by
  refine (keys_differ ?_ ?_ (by simp)).1 "size"
  all_goals
    simp only [ArePlain, forall_mem_cons, not_mem_nil, false_implies, implies_true, and_true]
    exact ⟨⟨by decide, .number 10⟩, by decide, .flag _⟩

/-- Steps of one or five. -/
def twoSteps : Dict Json :=
  [("steps", .arr [.nat 1, .nat 5])]

/-- Steps of one and a half. -/
def halfSteps : Dict Json :=
  [("steps", .arr [.real ⟨false, 3 * Nat.pow 2 51, -52⟩])]

theorem keys_shared : twoSteps ≠ halfSteps ∧ text twoSteps = "bin_steps__1_5_" ∧
    key twoSteps "size" = key halfSteps "size" ∧
    key [("a", .nat 1), ("b", .nat 2), ("step", .nat 3)] "size" =
      key [("a_1_b", .nat 2), ("step", .nat 3)] "size" := by
  refine ⟨by simp [twoSteps, halfSteps, Json.nat, Json.real], ?_⟩
  decide +kernel

end ChartPlan.Bin
