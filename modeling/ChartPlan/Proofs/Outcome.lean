import ChartPlan.Error

/-!
# Outcomes

Work that may be refused ends in a value or in an error. An error blames the dataflow when it is the
one of an inconsistent graph; every other error blames the chart.

* `Delivers Q r`: `r` is a value with the property `Q`, or an error that blames the chart.
* `Checked.outcome`: how work ends, without its notes.
-/

namespace ChartPlan

/-- Whether an error blames the dataflow and not the chart. -/
def Error.blamesGraph : Error → Bool
  | .invalidGraph _ => true
  | _ => false

/-- A value with a property, or an error that blames the chart. -/
def Delivers {α : Type} (Q : α → Prop) : Except Error α → Prop
  | .ok a => Q a
  | .error e => e.blamesGraph = false

abbrev Fair {α : Type} (r : Except Error α) : Prop :=
  Delivers (fun _ => True) r

variable {α β : Type} {P : α → Prop} {Q : β → Prop} {f : α → Except Error β} {r : Except Error α}

@[simp] theorem delivers_ok {a : α} : Delivers P (.ok a) ↔ P a :=
  Iff.rfl

@[simp] theorem delivers_pure {a : α} : Delivers P (pure a) ↔ P a :=
  Iff.rfl

@[simp] theorem delivers_error {e : Error} :
    Delivers P (.error e : Except Error α) ↔ e.blamesGraph = false :=
  Iff.rfl

theorem Delivers.bind (hr : Delivers P r) (hf : ∀ a, P a → Delivers Q (f a)) :
    Delivers Q (r >>= f) := by
  cases r with
  | error e => exact hr
  | ok a => exact hf a hr

theorem Delivers.mono {R : α → Prop} (hr : Delivers P r) (hR : ∀ a, P a → R a) : Delivers R r := by
  cases r with
  | error e => exact hr
  | ok a => exact hR a hr

theorem Delivers.of_eq_ok {a : α} (h : Delivers P r) (hr : r = .ok a) : P a := by
  subst hr
  exact h

theorem exists_ok {ε : Type} {r : Except ε α} (h : r.toOption.isSome) : ∃ a, r = .ok a := by
  cases r with
  | error e => cases h
  | ok a => exact ⟨a, rfl⟩

theorem exists_ok_of_map {ε : Type} {r : Except ε α} {see : α → β} {b : β} (h : r.toOption.map see = some b) :
    ∃ a, r = .ok a ∧ see a = b := by
  cases r with
  | error e => cases h
  | ok a => exact ⟨a, rfl, Option.some.inj h⟩

theorem Fair.bind (hr : Fair r) (hf : ∀ a, Delivers Q (f a)) : Delivers Q (r >>= f) :=
  Delivers.bind hr fun a _ => hf a

theorem Fair.map (hr : Fair r) (f : α → β) : Fair (r.map f) := by
  cases r with
  | error e => exact hr
  | ok a => trivial

theorem Delivers.mapM {as : List α} (hf : ∀ a ∈ as, Delivers Q (f a)) :
    Delivers (fun bs => ∀ b ∈ bs, Q b) (as.mapM f) := by
  rw [← List.mapM'_eq_mapM]
  induction as with
  | nil => exact fun b hb => absurd hb List.not_mem_nil
  | cons a rest ih =>
    refine (hf a List.mem_cons_self).bind fun b hb => ?_
    refine (ih fun c hc => hf c (List.mem_cons_of_mem a hc)).bind fun bs hbs => ?_
    exact List.forall_mem_cons.mpr ⟨hb, hbs⟩

theorem Fair.mapM {as : List α} (hf : ∀ a ∈ as, Fair (f a)) : Fair (as.mapM f) :=
  (Delivers.mapM hf).mono fun _ _ => trivial

theorem bind_eq_ok {ε α β : Type} {x : Except ε α} {k : α → Except ε β} {b : β} :
    x >>= k = .ok b ↔ ∃ a, x = .ok a ∧ k a = .ok b := by
  cases x with
  | error e => exact ⟨fun h => (nomatch h), fun ⟨_, h, _⟩ => (nomatch h)⟩
  | ok a => exact ⟨fun h => ⟨a, rfl, h⟩, fun ⟨_, ha, h⟩ => Except.ok.inj ha ▸ h⟩

theorem map_eq_ok {ε α β : Type} {x : Except ε α} {k : α → β} {b : β} :
    x.map k = .ok b ↔ ∃ a, x = .ok a ∧ k a = b := by
  cases x with
  | error e => exact ⟨fun h => (nomatch h), fun ⟨_, h, _⟩ => (nomatch h)⟩
  | ok a => exact ⟨fun h => ⟨a, rfl, Except.ok.inj h⟩, fun ⟨_, ha, h⟩ => by cases ha; exact h ▸ rfl⟩

namespace Checked

variable {f : α → Checked β}

def outcome (x : Checked α) : Except Error α :=
  x.run.value

@[simp] theorem outcome_pure (a : α) : outcome (pure a : Checked α) = .ok a :=
  rfl

@[simp] theorem outcome_fail (e : Error) : outcome (fail e : Checked α) = .error e :=
  rfl

@[simp] theorem outcome_ofExcept (r : Except Error α) : outcome (ofExcept r) = r :=
  rfl

@[simp] theorem outcome_ofLogged (x : Logged α) : outcome (ofLogged x) = .ok x.value :=
  rfl

@[simp] theorem outcome_warn (message : String) : outcome (warn message) = .ok () :=
  rfl

theorem outcome_bind (x : Checked α) (f : α → Checked β) :
    outcome (x >>= f) = outcome x >>= fun a => outcome (f a) := by
  show (ExceptT.bindCont f x.run.value).value = _
  unfold outcome
  cases x.run.value <;> rfl

theorem outcome_bind_eq_ok {x : Checked α} {b : β} :
    (x >>= f).outcome = .ok b ↔ ∃ a, x.outcome = .ok a ∧ (f a).outcome = .ok b := by
  rw [outcome_bind]
  exact bind_eq_ok

theorem outcome_mapM (f : α → Checked β) (as : List α) :
    outcome (as.mapM f) = as.mapM fun a => outcome (f a) := by
  unfold List.mapM
  generalize ([] : List β) = read
  induction as generalizing read with
  | nil => rfl
  | cons a rest ih =>
    unfold List.mapM.loop
    rw [outcome_bind]
    exact congrArg _ (funext fun b => ih (b :: read))

theorem delivers_bind {x : Checked α} (hx : Delivers P x.outcome)
    (hf : ∀ a, P a → Delivers Q (f a).outcome) : Delivers Q (x >>= f).outcome := by
  rw [outcome_bind]
  exact hx.bind hf

theorem fair_bind {x : Checked α} (hx : Fair x.outcome) (hf : ∀ a, Delivers Q (f a).outcome) :
    Delivers Q (x >>= f).outcome :=
  delivers_bind hx fun a _ => hf a

theorem delivers_mapM {as : List α} (hf : ∀ a ∈ as, Delivers Q (f a).outcome) :
    Delivers (fun bs => ∀ b ∈ bs, Q b) (as.mapM f).outcome := by
  rw [outcome_mapM]
  exact Delivers.mapM hf

end Checked

end ChartPlan
