import ChartPlan.Json.Basic

/-!
# Equal values

Values are compared with `==`, for which the two zeros are one number. Two values are equal exactly if
they are the same after the sign of zeros is dropped, so the comparison is an equivalence.

* `Json.unsigned`: the value without the signs of zeros;
* `Json.beq_iff_unsigned`, `Json.fields_beq_iff`: equality of values and of fields.
-/

namespace ChartPlan

def Binary64.unsigned (x : Binary64) : Binary64 :=
  if x.isZero then zero false else x

def Number.unsigned : Number → Number
  | .int i => .int i
  | .real x => .real x.unsigned

theorem Binary64.beq_iff (x y : Binary64) : x == y ↔ x.unsigned = y.unsigned := by
  show ((x.isZero && y.isZero) || decide (x = y)) = true ↔ _
  have hzero : (zero false).isZero = true := rfl
  unfold unsigned
  by_cases hx : x.isZero <;> by_cases hy : y.isZero
  · simp [hx, hy]
  · rw [if_pos hx, if_neg hy]
    simp only [hx, hy, Bool.and_false, Bool.false_or, decide_eq_true_eq]
    exact ⟨fun h => absurd (h ▸ hx) hy, fun h => absurd (h ▸ hzero) hy⟩
  · rw [if_neg hx, if_pos hy]
    simp only [hx, hy, Bool.and_true, Bool.false_or, decide_eq_true_eq]
    exact ⟨fun h => absurd (h ▸ hy) hx, fun h => absurd (h ▸ hzero) hx⟩
  · simp [hx, hy]

theorem Number.beq_iff (m n : Number) : m == n ↔ m.unsigned = n.unsigned := by
  cases m with
  | int i =>
    cases n with
    | int j =>
      refine ⟨fun h => congrArg Number.int (eq_of_beq h), fun h => ?_⟩
      cases h
      exact beq_self_eq_true i
    | real y => exact ⟨fun h => Bool.noConfusion h, nofun⟩
  | real x =>
    cases n with
    | int j => exact ⟨fun h => Bool.noConfusion h, nofun⟩
    | real y =>
      exact (Binary64.beq_iff x y).trans ⟨fun h => congrArg Number.real h, Number.real.inj⟩

namespace Json

mutual

def unsigned : Json → Json
  | .num n => .num n.unsigned
  | .arr items => .arr (unsignedItems items)
  | .obj fields => .obj (unsignedFields fields)
  | v => v

def unsignedItems : List Json → List Json
  | [] => []
  | v :: rest => v.unsigned :: unsignedItems rest

def unsignedFields : List (String × Json) → List (String × Json)
  | [] => []
  | (key, v) :: rest => (key, v.unsigned) :: unsignedFields rest

end

mutual

theorem beq_iff : (a b : Json) → (a.beq b ↔ a.unsigned = b.unsigned)
  | .null, b | .bool _, b | .str _, b => by cases b <;> simp [beq, unsigned]
  | .num m, b => by cases b <;> simp [beq, unsigned, Number.beq_iff]
  | .arr as, b => by cases b <;> simp [beq, unsigned, beqItems_iff as]
  | .obj as, b => by cases b <;> simp [beq, unsigned, beqFields_iff as]

theorem beqItems_iff : (as bs : List Json) → (beqItems as bs ↔ unsignedItems as = unsignedItems bs)
  | [], bs => by cases bs <;> simp [beqItems, unsignedItems]
  | a :: as, bs => by cases bs <;> simp [beqItems, unsignedItems, beq_iff a, beqItems_iff as]

theorem beqFields_iff : (as bs : List (String × Json)) →
    (beqFields as bs ↔ unsignedFields as = unsignedFields bs)
  | [], bs => by cases bs <;> simp [beqFields, unsignedFields]
  | (key, a) :: as, bs => by
    cases bs <;> simp [beqFields, unsignedFields, beq_iff a, beqFields_iff as, and_assoc]

end

theorem beq_iff_unsigned {a b : Json} : a == b ↔ a.unsigned = b.unsigned :=
  beq_iff a b

instance : EquivBEq Json where
  rfl := beq_iff_unsigned.mpr rfl
  symm h := beq_iff_unsigned.mpr (beq_iff_unsigned.mp h).symm
  trans h h' := beq_iff_unsigned.mpr ((beq_iff_unsigned.mp h).trans (beq_iff_unsigned.mp h'))

theorem fields_beq_iff (as bs : Dict Json) : as == bs ↔ unsignedFields as = unsignedFields bs := by
  rw [← beqFields_iff]
  induction as generalizing bs with
  | nil => cases bs <;> simp [beqFields]
  | cons a as ih =>
    cases bs with
    | nil => simp [beqFields]
    | cons b bs =>
      have hcons : (a :: as == b :: bs) = ((a.1 == b.1 && beq a.2 b.2) && as == bs) := rfl
      rw [hcons, beqFields, Bool.and_eq_true, Bool.and_eq_true (_ && _), ih]

end Json

end ChartPlan
