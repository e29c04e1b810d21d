import ChartPlan.Proofs.Outcome

/-!
# Notes and their records

The records of a verbosity are those of a full account that the verbosity admits, in the same order,
as long as a text always comes with the same level: a note that is left out because its text is on
record already is left out of both. All notes of the work here are warnings.

* `Diagnostics.Extract`: records that are taken from a full account.
* `Logged.Warns`, `Checked.Warns`: all notes of some work are warnings; `Logged.Yields`: besides, its
  result has a property.
* `Checked.Proper`: besides, when it is refused, the chart is to blame.
-/

namespace ChartPlan

open List

/-! ### Records -/

namespace Diagnostics

@[simp] theorem verbosity_record (d : Diagnostics) (note : Note) :
    (d.record note).verbosity = d.verbosity := by
  unfold record
  split
  · rfl
  · split <;> rfl

def mentions (d : Diagnostics) (message : String) : Bool :=
  d.entries.any fun e => e.message == message

theorem mentions_iff {d : Diagnostics} {message : String} :
    d.mentions message ↔ ∃ e ∈ d.entries, e.message = message := by
  simp [mentions]

theorem entries_record (d : Diagnostics) (note : Note) :
    (d.record note).entries =
      if (note.once && d.mentions note.message) || !d.verbosity.admits note.level then d.entries
      else d.entries ++ [⟨note.level, note.message⟩] := by
  unfold record mentions
  split
  · rename_i h
    simp [h]
  · rename_i h
    cases hadmits : d.verbosity.admits note.level <;> simp [h]

/-- Whether records are the part of a full account that their verbosity admits, where `levels` gives
the level of each text. -/
structure Extract (levels : String → Level) (d full : Diagnostics) : Prop where
  verbosity : full.verbosity = .debug
  entries : d.entries = full.entries.filter fun e => e.level.rank ≤ d.verbosity.rank
  level : ∀ e ∈ full.entries, e.level = levels e.message

theorem admits_debug (level : Level) : Level.admits .debug level = (level != .none) := by
  cases level <;> rfl

theorem Extract.record {levels : String → Level} {d full : Diagnostics} (h : Extract levels d full)
    {note : Note} (hnote : note.level = levels note.message) :
    Extract levels (d.record note) (full.record note) := by
  have hmentions : d.mentions note.message =
      (full.mentions note.message && decide (note.level.rank ≤ d.verbosity.rank)) := by
    -- All records of the text have its level.
    rw [Bool.eq_iff_iff, Bool.and_eq_true, mentions_iff, mentions_iff, decide_eq_true_iff, h.entries]
    constructor
    · rintro ⟨e, he, hmessage⟩
      obtain ⟨hmem, hrank⟩ := mem_filter.mp he
      rw [hnote, ← hmessage, ← h.level e hmem]
      exact ⟨⟨e, hmem, rfl⟩, of_decide_eq_true hrank⟩
    · rintro ⟨⟨e, hmem, hmessage⟩, hrank⟩
      rw [hnote, ← hmessage, ← h.level e hmem] at hrank
      exact ⟨e, mem_filter.mpr ⟨hmem, decide_eq_true hrank⟩, hmessage⟩
  refine ⟨by rw [verbosity_record, h.verbosity], ?_, ?_⟩
  · rw [entries_record, entries_record, h.verbosity, admits_debug, hmentions, verbosity_record,
      Level.admits]
    cases note.once <;> cases full.mentions note.message <;> cases note.level != .none <;>
      by_cases hrank : note.level.rank ≤ d.verbosity.rank <;>
      simp [hrank, h.entries, filter_append]
  · rw [entries_record]
    split
    · exact h.level
    · intro e he
      rcases mem_append.mp he with he | he
      · exact h.level e he
      · rw [mem_singleton.mp he]
        exact hnote

theorem Extract.foldl {levels : String → Level} {d full : Diagnostics} (h : Extract levels d full)
    {notes : List Note} (hnotes : ∀ note ∈ notes, note.level = levels note.message) :
    Extract levels (notes.foldl Diagnostics.record d) (notes.foldl Diagnostics.record full) := by
  induction notes generalizing d full with
  | nil => exact h
  | cons note rest ih =>
    exact ih (h.record (hnotes note mem_cons_self)) fun n hn => hnotes n (mem_cons_of_mem _ hn)

end Diagnostics

/-! ### Work that only warns -/

def Warnings (notes : List Note) : Prop :=
  ∀ note ∈ notes, note.level = .warn

theorem warnings_nil : Warnings [] :=
  fun _ h => nomatch h

theorem Warnings.append {a b : List Note} (ha : Warnings a) (hb : Warnings b) : Warnings (a ++ b) :=
  fun note h => (mem_append.mp h).elim (ha note) (hb note)

theorem warnings_map {f : α → Note} (h : ∀ a, (f a).level = .warn) (as : List α) :
    Warnings (as.map f) := by
  intro note hnote
  obtain ⟨a, -, rfl⟩ := mem_map.mp hnote
  exact h a

variable {α β : Type}

def Logged.Warns (x : Logged α) : Prop :=
  Warnings x.notes

namespace Logged

theorem warns_pure (a : α) : (pure a : Logged α).Warns :=
  warnings_nil

theorem warns_warn (message : String) : (warn message).Warns := by
  intro note h
  rw [mem_singleton.mp h]

theorem Warns.bind {x : Logged α} {f : α → Logged β} (hx : x.Warns) (hf : ∀ a, (f a).Warns) :
    (x >>= f).Warns :=
  Warnings.append hx (hf _)

theorem Warns.map {x : Logged α} (hx : x.Warns) {f : α → β} : (x >>= fun a => pure (f a)).Warns :=
  hx.bind fun _ => warns_pure _

/-- The result has a property, and all notes are warnings. -/
structure Yields (P : α → Prop) (x : Logged α) : Prop where
  value : P x.value
  warns : x.Warns

section

variable {P : α → Prop} {Q : β → Prop} {x : Logged α} {f : α → Logged β}

theorem yields_pure {a : α} (h : P a) : (pure a : Logged α).Yields P :=
  ⟨h, warns_pure a⟩

theorem Warns.yields (hx : x.Warns) (hf : ∀ a, (f a).Yields Q) : (x >>= f).Yields Q :=
  ⟨(hf _).value, hx.bind fun a => (hf a).warns⟩

theorem Yields.bind (hx : x.Yields P) (hf : ∀ a, P a → (f a).Yields Q) : (x >>= f).Yields Q :=
  ⟨(hf _ hx.value).value, Warnings.append hx.warns (hf _ hx.value).warns⟩

theorem Yields.mono {P' : α → Prop} (hx : x.Yields P) (h : ∀ a, P a → P' a) : x.Yields P' :=
  ⟨h _ hx.value, hx.warns⟩

end

end Logged

/-- Whether all notes of work that is not refused are warnings. -/
def Checked.Warns (x : Checked α) : Prop :=
  ∀ a, x.outcome = .ok a → Warnings x.run.notes

namespace Checked

variable {x : Checked α}

theorem warns_pure (a : α) : (pure a : Checked α).Warns :=
  fun _ _ => warnings_nil

theorem warns_ofExcept (r : Except Error α) : (ofExcept r).Warns :=
  fun _ _ => warnings_nil

theorem warns_ofLogged {x : Logged α} (hx : x.Warns) : (ofLogged x).Warns :=
  fun _ _ => Warnings.append hx warnings_nil

theorem warns_warn (message : String) : (warn message).Warns :=
  warns_ofLogged (Logged.warns_warn message)

theorem Warns.bind_ok {f : α → Checked β} (hx : x.Warns) (hf : ∀ a, x.outcome = .ok a → (f a).Warns) :
    (x >>= f).Warns := by
  intro b hb
  obtain ⟨a, ha, hb⟩ := outcome_bind_eq_ok.mp hb
  have hnotes : (x >>= f).run.notes = x.run.notes ++ (f a).run.notes := by
    show x.run.notes ++ (ExceptT.bindCont f x.run.value).notes = _
    rw [show x.run.value = .ok a from ha]
    rfl
  rw [hnotes]
  exact (hx a ha).append (hf a ha b hb)

theorem Warns.bind {f : α → Checked β} (hx : x.Warns) (hf : ∀ a, (f a).Warns) : (x >>= f).Warns :=
  hx.bind_ok fun a _ => hf a

theorem Warns.map (hx : x.Warns) {f : α → β} : (x >>= fun a => pure (f a)).Warns :=
  hx.bind fun _ => warns_pure _

/-- Whether work is refused for what is written in the chart, or done with nothing but warnings. -/
def Proper (x : Checked α) : Prop :=
  Delivers (fun _ => Warnings x.run.notes) x.outcome

theorem Proper.warns (h : x.Proper) : x.Warns :=
  fun _ ha => h.of_eq_ok ha

theorem Proper.fair (h : x.Proper) : Fair x.outcome :=
  h.mono fun _ _ => trivial

theorem proper_of_fair (hfair : Fair x.outcome) (hwarns : x.Warns) : x.Proper := by
  unfold Proper
  cases hx : x.outcome with
  | error e => rwa [hx] at hfair
  | ok a => exact hwarns a hx

theorem proper_pure (a : α) : (pure a : Checked α).Proper :=
  warnings_nil

theorem proper_fail {e : Error} (h : e.blamesGraph = false) : (fail e : Checked α).Proper :=
  h

theorem proper_warn (message : String) : (warn message).Proper :=
  proper_of_fair trivial (warns_warn message)

theorem proper_ofExcept {r : Except Error α} (h : Fair r) : (ofExcept r).Proper :=
  proper_of_fair h (warns_ofExcept r)

theorem Proper.bind {f : α → Checked β} (hx : x.Proper) (hf : ∀ a, (f a).Proper) :
    (x >>= f).Proper :=
  proper_of_fair (fair_bind hx.fair fun a => (hf a).fair) (hx.warns.bind fun a => (hf a).warns)

theorem Proper.map (hx : x.Proper) {f : α → β} : (x >>= fun a => pure (f a)).Proper :=
  hx.bind fun _ => proper_pure _

theorem proper_mapM {f : α → Checked β} (hf : ∀ a, (f a).Proper) (as : List α) :
    (as.mapM f).Proper := by
  unfold List.mapM
  generalize ([] : List β) = done
  induction as generalizing done with
  | nil => exact proper_pure _
  | cons a rest ih =>
    unfold List.mapM.loop
    exact (hf a).bind fun b => ih (b :: done)

end Checked

end ChartPlan
