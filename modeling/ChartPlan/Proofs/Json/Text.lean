import ChartPlan.Json.Parser
import ChartPlan.Json.Printer
import ChartPlan.Proofs.Json.Fields
import Mathlib.Data.List.Basic

/-!
# Texts of values tell values apart

The text of a value ends where it says: a quoted text at its quote, a list and an object where they are
closed, and a number where something else begins. So a text tells a value up to the numbers in it that
are written alike.

* `Json.spelled`: the value with one number for all that have the same text;
* `Json.toText_eq_iff`: values have one text exactly if they are spelled alike.
-/

namespace ChartPlan

open List

/-! ### Quoted text -/

namespace Json.Parser

theorem hex?_hexDigit : ∀ n < 16, hex? (Text.hexDigit n) = some n := by
  decide

theorem escaped?_hexDigit {n : Nat} (h : n < 32) (rest : List Char) :
    escaped? ('0' :: '0' :: Text.hexDigit (n / 16) :: Text.hexDigit n :: rest) =
      some (Char.ofNat n, rest) := by
  have hlow : Text.hexDigit n = Text.hexDigit (n % 16) := by
    unfold Text.hexDigit
    rw [Nat.mod_mod]
  have hunit : unit? ('0' :: '0' :: Text.hexDigit (n / 16) :: Text.hexDigit n :: rest) =
      some (n, rest) := by
    have hzero : hex? '0' = some 0 := rfl
    simp only [unit?, hlow, hzero, hex?_hexDigit (n / 16) (by omega),
      hex?_hexDigit (n % 16) (by omega)]
    show some ((((0 * 16 + 0) * 16 + n / 16) * 16 + n % 16), rest) = _
    rw [show ((0 * 16 + 0) * 16 + n / 16) * 16 + n % 16 = n by omega]
  unfold escaped?
  rw [hunit]
  show (if _ then _ else _) = _
  rw [if_neg (by simp; omega), if_neg (by simp; omega)]

theorem chars?_quoteChar (fuel : Nat) (read : List Char) (c : Char) (rest : List Char) :
    chars? (fuel + 1) read (Text.quoteChar c ++ rest) = chars? fuel (c :: read) rest := by
  unfold Text.quoteChar
  split
  · rfl
  · rfl
  · rfl
  · rfl
  · rfl
  · rename_i hquote hback _ _ _
    split_ifs with hc hc hc
    · rw [← Char.ofNat_toNat c, hc]
      rfl
    · rw [← Char.ofNat_toNat c, hc]
      rfl
    · simp only [cons_append, nil_append, chars?, escaped?_hexDigit hc, Char.ofNat_toNat]
      rfl
    · have hplain : ¬ (decide (c.toNat < 0x20) || c == '\\') = true := by
        simpa using ⟨Nat.le_of_not_lt hc, fun he => hback he⟩
      show chars? (fuel + 1) read (c :: rest) = _
      rw [chars?, if_neg hplain]
      · exact hquote
      · exact fun _ he _ => hback he
      · exact fun _ _ he _ => hback he

theorem chars?_flatMap_quoteChar (text : List Char) (fuel : Nat) (read rest : List Char) :
    chars? (text.length + 1 + fuel) read (text.flatMap Text.quoteChar ++ '"' :: rest) =
      some (read.reverse ++ text, rest) := by
  induction text generalizing read with
  | nil =>
    rw [show [].length + 1 + fuel = fuel + 1 by simp [Nat.add_comm], append_nil]
    rfl
  | cons c text ih =>
    rw [show (c :: text).length + 1 + fuel = (text.length + 1 + fuel) + 1 by simp; omega,
      flatMap_cons, append_assoc, chars?_quoteChar, ih]
    simp

end Json.Parser

namespace Text

theorem flatMap_quoteChar_inj {a b r s : List Char}
    (h : a.flatMap quoteChar ++ '"' :: r = b.flatMap quoteChar ++ '"' :: s) : a = b ∧ r = s := by
  have ha := Json.Parser.chars?_flatMap_quoteChar a (b.length + 1) [] r
  have hb := Json.Parser.chars?_flatMap_quoteChar b (a.length + 1) [] s
  rw [h, Nat.add_comm, hb] at ha
  simpa [eq_comm] using ha

theorem toList_quote (text : String) :
    (quote text).toList = '"' :: (text.toList.flatMap quoteChar ++ ['"']) := by
  simp [quote]

theorem quote_append_inj {a b : String} {r s : List Char}
    (h : (quote a).toList ++ r = (quote b).toList ++ s) : a = b ∧ r = s := by
  simp only [toList_quote, cons_append, append_assoc, nil_append] at h
  obtain ⟨hab, hrs⟩ := flatMap_quoteChar_inj (cons.inj h).2
  exact ⟨String.toList_inj.mp hab, hrs⟩

end Text

/-! ### Numbers -/

theorem append_span_inj {p : Char → Bool} {a b r s : List Char} (ha : ∀ c ∈ a, p c) (hb : ∀ c ∈ b, p c)
    (hr : ∀ c ∈ r.head?, ¬ p c) (hs : ∀ c ∈ s.head?, ¬ p c) (h : a ++ r = b ++ s) : a = b ∧ r = s := by
  have hstop : ∀ {r : List Char}, (∀ c ∈ r.head?, ¬ p c) → r.takeWhile p = [] := by
    intro r hr
    cases r with
    | nil => rfl
    | cons c r => exact takeWhile_cons_of_neg (hr c rfl)
  have hab := congrArg (takeWhile p) h
  rw [takeWhile_append_of_pos ha, takeWhile_append_of_pos hb, hstop hr, hstop hs, append_nil,
    append_nil] at hab
  subst hab
  exact ⟨rfl, append_cancel_left h⟩

theorem isDigit_of_mem_toString {k : Nat} {c : Char} (h : c ∈ (toString k).toList) : c.isDigit := by
  rw [Nat.toString_eq_repr, Nat.repr_eq_ofList_toDigits, String.toList_ofList] at h
  exact Nat.isDigit_of_mem_toDigits (by decide) (by decide) h

theorem toString_injective {j k : Nat} (h : toString j = toString k) : j = k := by
  have hdigits : Nat.toDigits 10 j = Nat.toDigits 10 k := by
    simpa [Nat.toString_eq_repr, Nat.repr_eq_ofList_toDigits] using congrArg String.toList h
  rw [← Nat.ofDigitChars_toDigits (b := 10) (n := j) (by decide) (by decide), hdigits,
    Nat.ofDigitChars_toDigits (by decide) (by decide)]

namespace Number

/-- Whether a character stands in texts of numbers. -/
def isPart (c : Char) : Bool :=
  c.isDigit || ['-', '+', '.', 'e'].contains c

theorem isPart_of_mem_toDigits {k : Nat} {c : Char} (h : c ∈ Nat.toDigits 10 k) : isPart c := by
  simp [isPart, Nat.isDigit_of_mem_toDigits (by decide) (by decide) h]

theorem isPart_of_mem_real {x : Binary64} {c : Char} (h : c ∈ x.toText.toList) : isPart c := by
  have hmarks : ∀ c ∈ ['-', '+', '.', 'e', '0'], isPart c := by simp [isPart]
  have htake {k n : Nat} (h : c ∈ (Nat.toDigits 10 k).take n) : isPart c :=
    isPart_of_mem_toDigits (mem_of_mem_take h)
  have hdrop {k n : Nat} (h : c ∈ (Nat.toDigits 10 k).drop n) : isPart c :=
    isPart_of_mem_toDigits (mem_of_mem_drop h)
  simp only [Binary64.toText] at h
  split_ifs at h <;>
    simp only [String.toList_append, String.toList_ofList, mem_append, mem_replicate, mem_cons] at h <;>
    grind [isPart_of_mem_toDigits]

/-- The text of a number is made of characters of numbers, of one at least. -/
theorem numeral (n : Number) : n.toText.toList ≠ [] ∧ ∀ c ∈ n.toText.toList, isPart c := by
  have hnat : ∀ k : Nat, ∀ c ∈ (toString k).toList, isPart c := fun k c hc => by
    simp [isPart, isDigit_of_mem_toString hc]
  cases n with
  | int i =>
    cases i with
    | ofNat k =>
      show (toString k).toList ≠ [] ∧ _
      exact ⟨by simp, hnat k⟩
    | negSucc k =>
      show ("-" ++ toString (k + 1)).toList ≠ [] ∧ ∀ c ∈ ("-" ++ toString (k + 1)).toList, isPart c
      rw [String.toList_append, forall_mem_append]
      exact ⟨by simp, by simp [isPart], hnat (k + 1)⟩
  | real x =>
    refine ⟨?_, fun _ => isPart_of_mem_real⟩
    simp only [toText, Binary64.toText]
    split_ifs <;> simp [Nat.toDigits_ne_nil]

theorem toText_int_inj {i j : Int} (h : toText (.int i) = toText (.int j)) : i = j := by
  have hsign : ∀ a b : Nat, toString a ≠ "-" ++ toString b := fun a b he =>
    absurd (isDigit_of_mem_toString (c := '-') (k := a) (by simp [he])) (by decide)
  cases i <;> cases j
  · exact congrArg Int.ofNat (toString_injective h)
  · exact absurd h (hsign _ _)
  · exact absurd h.symm (hsign _ _)
  · have hsucc := toString_injective ((String.append_right_inj _).mp h)
    exact congrArg Int.negSucc (Nat.succ.inj hsucc)

instance : Nonempty Number := ⟨.int 0⟩

/-- One number for all with the same text. -/
noncomputable def spelled (n : Number) : Number :=
  Function.invFun toText n.toText

theorem toText_spelled (n : Number) : n.spelled.toText = n.toText :=
  Function.invFun_eq ⟨n, rfl⟩

end Number

namespace Json

theorem sizeOf_lt_of_mem_items {items : List Json} {v : Json} (h : v ∈ items) :
    sizeOf v < sizeOf (Json.arr items) := by
  have := sizeOf_lt_of_mem h
  simp only [Json.arr.sizeOf_spec]
  omega

theorem sizeOf_lt_of_mem_fields {fields : List (String × Json)} {field : String × Json}
    (h : field ∈ fields) : sizeOf field.2 < sizeOf (Json.obj fields) := by
  have := sizeOf_lt_of_mem h
  have : sizeOf field.2 < sizeOf field := by
    cases field
    simp only [Prod.mk.sizeOf_spec]
    omega
  simp only [Json.obj.sizeOf_spec]
  omega

theorem induction {P : Json → Prop} (hleaf : ∀ v, v.items? = none → v.fields? = none → P v)
    (harr : ∀ items, (∀ v ∈ items, P v) → P (.arr items))
    (hobj : ∀ fields, (∀ field ∈ fields, P field.2) → P (.obj fields)) (v : Json) : P v := by
  induction hsize : sizeOf v using Nat.strongRecOn generalizing v with
  | ind size ih =>
    cases v with
    | arr items => exact harr items fun v hv => ih _ (hsize ▸ sizeOf_lt_of_mem_items hv) v rfl
    | obj fields => exact hobj fields fun e he => ih _ (hsize ▸ sizeOf_lt_of_mem_fields he) e.2 rfl
    | _ => exact hleaf _ rfl rfl

/-- The value with one number for all that are written alike. -/
noncomputable def spelled : Json → Json
  | .num n => .num n.spelled
  | .arr items => .arr (items.map spelled)
  | .obj fields => .obj (fields.map fun field => (field.1, spelled field.2))
  | v => v
decreasing_by
  · exact sizeOf_lt_of_mem_items ‹_›
  · exact sizeOf_lt_of_mem_fields ‹_›

def chars (v : Json) : List Char :=
  v.toText.toList

def fieldChars (field : String × Json) : List Char :=
  (Text.quote field.1).toList ++ ':' :: field.2.chars

theorem itemTexts_eq (items : List Json) : itemTexts items = items.map toText := by
  induction items with
  | nil => rfl
  | cons v rest ih =>
    unfold itemTexts
    rw [ih]
    rfl

theorem toList_fieldTexts (fields : List (String × Json)) :
    (fieldTexts fields).map String.toList = fields.map fieldChars := by
  induction fields with
  | nil => rfl
  | cons field rest ih =>
    unfold fieldTexts
    simp [ih, fieldChars, chars]

theorem intercalate_cons {c : Char} (x : List Char) (rest : List (List Char)) :
    [c].intercalate (x :: rest) = x ++ rest.flatMap (c :: ·) := by
  induction rest generalizing x with
  | nil => simp
  | cons y rest ih =>
    rw [intercalate_cons_cons, ih, flatMap_cons]
    simp

theorem chars_arr (items : List Json) :
    (Json.arr items).chars = '[' :: ([','].intercalate (items.map chars) ++ [']']) := by
  show (toText (.arr items)).toList = _
  rw [toText, itemTexts_eq]
  rw [String.toList_append, String.toList_append, String.toList_intercalate, map_map]
  rfl

theorem chars_obj (fields : List (String × Json)) :
    (Json.obj fields).chars = '\x7b' :: ([','].intercalate (fields.map fieldChars) ++ ['\x7d']) := by
  unfold chars toText
  simp [String.toList_intercalate, toList_fieldTexts]

theorem chars_spelled (v : Json) : v.spelled.chars = v.chars := by
  induction v using induction with
  | hleaf v harr hobj =>
    cases v with
    | num n =>
      rw [spelled]
      exact congrArg String.toList n.toText_spelled
    | arr items => cases harr
    | obj fields => cases hobj
    | _ => rw [spelled]; all_goals simp
  | harr items ih =>
    rw [spelled, chars_arr, chars_arr, map_map]
    exact congrArg (fun texts => '[' :: ([','].intercalate texts ++ [']'])) (map_congr_left ih)
  | hobj fields ih =>
    rw [spelled, chars_obj, chars_obj, map_map, map_congr_left fun field hfield => ?_]
    exact congrArg (fun value => (Text.quote field.1).toList ++ ':' :: value) (ih field hfield)

/-- The first character of a value that is no number. -/
def lead : Json → Option Char
  | .null => some 'n'
  | .bool true => some 't'
  | .bool false => some 'f'
  | .num _ => none
  | .str _ => some '"'
  | .arr _ => some '['
  | .obj _ => some '\x7b'

theorem head_chars (v : Json) :
    ∃ c rest, v.chars = c :: rest ∧ c ≠ ']' ∧ v.lead = if Number.isPart c then none else some c := by
  cases v with
  | null => exact ⟨'n', ['u', 'l', 'l'], by simp [chars, toText], by decide, by decide⟩
  | bool b =>
    cases b
    · exact ⟨'f', ['a', 'l', 's', 'e'], by simp [chars, toText], by decide, by decide⟩
    · exact ⟨'t', ['r', 'u', 'e'], by simp [chars, toText], by decide, by decide⟩
  | num n =>
    obtain ⟨hne, hpart⟩ := n.numeral
    obtain ⟨c, rest, hlist⟩ := exists_cons_of_ne_nil hne
    have hc : Number.isPart c := hpart c (hlist ▸ mem_cons_self)
    exact ⟨c, rest, hlist, fun he => absurd (he ▸ hc) (by decide), by rw [if_pos hc]; rfl⟩
  | str s => exact ⟨_, _, Text.toList_quote s, by decide, rfl⟩
  | arr items => exact ⟨_, _, chars_arr items, by decide, rfl⟩
  | obj fields => exact ⟨_, _, chars_obj fields, by decide, rfl⟩

theorem lead_eq {v w : Json} {r s : List Char} (h : v.chars ++ r = w.chars ++ s) : v.lead = w.lead := by
  obtain ⟨a, _, ha, -, hv⟩ := head_chars v
  obtain ⟨b, _, hb, -, hw⟩ := head_chars w
  rw [ha, hb] at h
  rw [hv, hw, (cons.inj h).1]

theorem eq_of_lead (w : Json) : (w.lead = some 'n' → w = .null) ∧
    (∀ b, w.lead = (Json.bool b).lead → w = .bool b) ∧ (w.lead = none → ∃ n, w = .num n) ∧
    (w.lead = some '"' → ∃ text, w = .str text) ∧ (w.lead = some '[' → ∃ items, w = .arr items) ∧
    (w.lead = some '\x7b' → ∃ fields, w = .obj fields) := by
  cases w with
  | bool b => cases b <;> simp [lead]
  | _ => simp [lead]

/-- Whether no number goes on here. -/
def Ends (r : List Char) : Prop :=
  ∀ c ∈ r.head?, ¬ Number.isPart c

theorem ends_cons {c : Char} (h : ¬ Number.isPart c) (r : List Char) : Ends (c :: r) := by
  rintro _ ⟨⟩
  exact h

theorem intercalate_append_inj {α β : Type} {text : α → List Char} (key : α → β) {close : Char}
    {xs ys : List α} {r s : List Char} (hclose : close ≠ ',') (hend : ¬ Number.isPart close)
    (hhead : ∀ a, ∃ c rest, text a = c :: rest ∧ c ≠ close)
    (hinj : ∀ a ∈ xs, ∀ b r s, Ends r → Ends s → text a ++ r = text b ++ s → key a = key b ∧ r = s)
    (h : [','].intercalate (xs.map text) ++ close :: r = [','].intercalate (ys.map text) ++ close :: s) :
    xs.map key = ys.map key ∧ r = s := by
  have hends : ∀ (zs : List α) (r : List Char), Ends ((zs.map text).flatMap (',' :: ·) ++ close :: r) := by
    intro zs r
    cases zs with
    | nil => exact ends_cons hend r
    | cons z zs => exact ends_cons (by decide) _
  have htail : ∀ xs' ys' : List α, xs' ⊆ xs →
      (xs'.map text).flatMap (',' :: ·) ++ close :: r =
        (ys'.map text).flatMap (',' :: ·) ++ close :: s → xs'.map key = ys'.map key ∧ r = s := by
    intro xs'
    induction xs' with
    | nil =>
      intro ys' _ h
      cases ys' with
      | nil => exact ⟨rfl, (cons.inj h).2⟩
      | cons b ys' => exact absurd (cons.inj h).1 hclose
    | cons a xs' ih =>
      intro ys' hxs h
      cases ys' with
      | nil => exact absurd (cons.inj h).1.symm hclose
      | cons b ys' =>
        simp only [map_cons, flatMap_cons, append_assoc, cons_append,
          cons.injEq, true_and] at h
        obtain ⟨hab, hrest⟩ := hinj a (hxs (by simp)) b _ _ (hends _ _) (hends _ _) h
        obtain ⟨hkeys, hrs⟩ := ih ys' (fun c hc => hxs (by simp [hc])) hrest
        exact ⟨by rw [map_cons, map_cons, hab, hkeys], hrs⟩
  cases xs with
  | nil =>
    cases ys with
    | nil => exact ⟨rfl, (cons.inj h).2⟩
    | cons b ys =>
      obtain ⟨c, rest, hb, hc⟩ := hhead b
      rw [map_cons, intercalate_cons, hb] at h
      exact absurd (cons.inj h).1.symm hc
  | cons a xs =>
    cases ys with
    | nil =>
      obtain ⟨c, rest, ha, hc⟩ := hhead a
      rw [map_cons, intercalate_cons, ha] at h
      exact absurd (cons.inj h).1 hc
    | cons b ys =>
      rw [map_cons, map_cons, intercalate_cons, intercalate_cons] at h
      exact htail (a :: xs) (b :: ys) (Subset.refl _) (congrArg (',' :: ·) h)

theorem head_fieldChars (field : String × Json) :
    ∃ c rest, fieldChars field = c :: rest ∧ c ≠ '\x7d' := by
  unfold fieldChars
  rw [Text.toList_quote]
  exact ⟨'"', _, rfl, by decide⟩

theorem chars_append_inj {v w : Json} {r s : List Char} (hr : Ends r) (hs : Ends s)
    (h : v.chars ++ r = w.chars ++ s) : v.spelled = w.spelled ∧ r = s := by
  induction v using induction generalizing w r s with
  | hleaf v harr hobj =>
    have hlead := (lead_eq h).symm
    obtain ⟨hnull, hbool, hnum, hstr, -⟩ := eq_of_lead w
    cases v with
    | null =>
      cases hnull hlead
      exact ⟨rfl, append_cancel_left h⟩
    | bool b =>
      cases hbool b hlead
      exact ⟨rfl, append_cancel_left h⟩
    | num n =>
      obtain ⟨m, rfl⟩ := hnum hlead
      obtain ⟨htext, hrs⟩ := append_span_inj n.numeral.2 m.numeral.2 hr hs h
      rw [spelled, spelled, Number.spelled, String.toList_inj.mp htext]
      exact ⟨rfl, hrs⟩
    | str text =>
      obtain ⟨text', rfl⟩ := hstr hlead
      obtain ⟨rfl, hrs⟩ := Text.quote_append_inj h
      exact ⟨rfl, hrs⟩
    | arr items => cases harr
    | obj fields => cases hobj
  | harr items ih =>
    obtain ⟨items', rfl⟩ := (eq_of_lead w).2.2.2.2.1 (lead_eq h).symm
    simp only [chars_arr, cons_append, append_assoc, nil_append, cons.injEq, true_and] at h
    obtain ⟨hitems, hrs⟩ := intercalate_append_inj spelled (by decide) (by decide)
      (fun a => (head_chars a).imp fun _ => .imp fun _ hc => ⟨hc.1, hc.2.1⟩)
      (fun a ha _ _ _ hr hs hab => ih a ha hr hs hab) h
    rw [spelled, spelled, hitems]
    exact ⟨rfl, hrs⟩
  | hobj fields ih =>
    obtain ⟨fields', rfl⟩ := (eq_of_lead w).2.2.2.2.2 (lead_eq h).symm
    simp only [chars_obj, cons_append, append_assoc, nil_append, cons.injEq, true_and] at h
    obtain ⟨hfields, hrs⟩ := intercalate_append_inj (fun field => (field.1, field.2.spelled))
      (by decide) (by decide) head_fieldChars (fun a ha b r s hr hs hab => by
        unfold fieldChars at hab
        rw [append_assoc, append_assoc] at hab
        obtain ⟨hkey, hab⟩ := Text.quote_append_inj hab
        obtain ⟨hvalue, hrs⟩ := ih a ha hr hs (cons.inj hab).2
        exact ⟨Prod.ext hkey hvalue, hrs⟩) h
    rw [spelled, spelled, hfields]
    exact ⟨rfl, hrs⟩

theorem toText_eq_iff {v w : Json} : v.toText = w.toText ↔ v.spelled = w.spelled := by
  refine ⟨fun h => (chars_append_inj (r := []) (s := []) nofun nofun ?_).1, fun h => ?_⟩
  · unfold chars
    rw [h]
  · have hchars := congrArg chars h
    rw [chars_spelled, chars_spelled] at hchars
    exact String.toList_inj.mp hchars

/-! ### What a value was made of -/

@[simp] theorem spelled_texts (items : List String) : (Json.texts items).spelled = .texts items := by
  simp [texts, spelled]

/-- Whether the text of a value tells what the value was made of. -/
def Tells {α : Type} (f : α → Json) : Prop :=
  Function.Injective fun a => (f a).spelled

theorem tells_str : Tells Json.str := by
  intro a b h
  simpa [spelled] using h

theorem tells_int : Tells fun i : Int => .num (.int i) := fun _ _ h =>
  Number.toText_int_inj (toText_eq_iff.mpr h)

variable {α : Type} {f : α → Json}

theorem Tells.list (h : Tells f) : Tells fun items : List α => .arr (items.map f) := by
  intro xs ys hxy
  simp only [spelled, arr.injEq, map_map] at hxy
  exact map_injective_iff.mpr h hxy

theorem Tells.dict (h : Tells f) : Tells fun d : Dict α => .obj (d.mapValues f) := by
  intro d e hde
  simp only [spelled, obj.injEq, Dict.mapValues, map_map] at hde
  refine map_injective_iff.mpr (fun x y hxy => ?_) hde
  simp only [Function.comp, Prod.mk.injEq] at hxy
  exact Prod.ext hxy.1 (h hxy.2)

theorem Tells.option (h : Tells f) (hnull : ∀ a, f a ≠ .null) :
    Tells fun x : Option α => .ofOption (x.map f) := by
  have hsome : ∀ a, (f a).spelled ≠ Json.null.spelled := fun a => by
    have := hnull a
    cases hfa : f a <;> simp_all [spelled]
  intro x y hxy
  cases x <;> cases y
  · rfl
  · exact absurd hxy.symm (hsome _)
  · exact absurd hxy (hsome _)
  · exact congrArg some (h hxy)

theorem tells_texts : Tells texts := tells_str.list

theorem tells_text? : Tells ofText? := tells_str.option nofun

@[simp] theorem texts_inj {a b : List String} : texts a = texts b ↔ a = b :=
  ⟨fun h => tells_texts (congrArg spelled h), congrArg _⟩

@[simp] theorem spelled_ofText?_inj {a b : Option String} :
    (ofText? a).spelled = (ofText? b).spelled ↔ a = b :=
  ⟨fun h => tells_text? h, fun h => h ▸ rfl⟩

theorem spelled_fields {v w : Json} (h : v.spelled = w.spelled) (keys : List String) :
    ∀ key ∈ keys, (v.field? key).map spelled = (w.field? key).map spelled := by
  intro key _
  have hfield : ∀ v : Json, v.spelled.field? key = (v.field? key).map spelled := by
    intro v
    cases v with
    | obj fields =>
      rw [spelled, field?_obj, field?_obj]
      exact Dict.get?_mapValues spelled
    | _ => simp [spelled, field?, fields?]
  rw [← hfield, h, hfield]

theorem spelledFields_insert (d : Dict Json) (key : String) (v : Json) :
    (d.insert key v).mapValues spelled = (d.mapValues spelled).insert key v.spelled :=
  (Dict.insert_map (g := fun e : String × Json => (e.1, e.2.spelled)) (fun _ => rfl) d key v).symm

theorem spelledFields_extend (d other : Dict Json) :
    (d.extend other).mapValues spelled = (d.mapValues spelled).extend (other.mapValues spelled) := by
  induction other generalizing d with
  | nil => rfl
  | cons e rest ih => exact (ih (d.insert e.1 e.2)).trans (by rw [spelledFields_insert]; rfl)

theorem spelled_obj (d : Dict Json) : (Json.obj d).spelled = .obj (d.mapValues spelled) := by
  rw [spelled]
  rfl

theorem spelled_object (fields : List (String × Json)) :
    (object fields).spelled = object (Dict.mapValues spelled fields) :=
  (spelled_obj _).trans (congrArg Json.obj (spelledFields_extend [] fields))

theorem spelled_withField (v : Json) (key : String) (value : Json) :
    (v.withField key value).spelled = v.spelled.withField key value.spelled := by
  cases v with
  | obj d => rw [withField, spelled_obj, spelledFields_insert, spelled_obj, withField]
  | _ => simp [withField, spelled]

theorem spelled_withField? (v : Json) (key : String) (value : Option Json) :
    (v.withField? key value).spelled = v.spelled.withField? key (value.map spelled) := by
  cases value with
  | none => rfl
  | some value => exact spelled_withField v key value

/-- An option that is given on both sides or on none is told. -/
theorem map_spelled_of_ofOption {v w : Option Json} (h : (ofOption v).spelled = (ofOption w).spelled)
    (hsome : v.isSome = w.isSome) : v.map spelled = w.map spelled := by
  cases v <;> cases w <;> simp_all [ofOption]

theorem map_eq_of_map_spelled {β : Type} {g : Json → β} (hg : ∀ v w, v.spelled = w.spelled → g v = g w)
    {v w : Option Json} (h : v.map spelled = w.map spelled) : v.map g = w.map g := by
  cases v <;> cases w <;> simp_all
  exact hg _ _ h

end Json

theorem Json.toText_nat_inj {j k : Nat} (h : (Json.nat j).toText = (Json.nat k).toText) : j = k :=
  Int.ofNat_inj.mp (Number.toText_int_inj h)

end ChartPlan
