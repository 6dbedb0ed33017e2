/-
What readers can take from a text.

A reader may fail on a text, and what it takes from other texts depends on them.  Some
properties hold of whatever it takes:

* `Yields` — every value that a reader takes has a property;
* `Yields.bind` — a property is carried from step to step;
* `yields_record` — what every field of a record keeps holds of the record, be its fields
  named or in order;
* `Yields.of_read` — the property holds of the value of a whole text.
-/
import Transduction.Json.Reader

namespace Transduction.Json

variable {α β κ : Type} {x : Reader α} {f : α → Reader β} {P : α → Prop} {Q : β → Prop}

/-- Whatever a reader takes from a text has a property. -/
def Yields (x : Reader α) (P : α → Prop) : Prop :=
  ∀ text a rest, x text = .ok (a, rest) → P a

/-! ### Steps -/

theorem yields_pure {a : α} (h : P a) : Yields (pure a) P := by
  intro text a' rest heq
  cases heq
  exact h

theorem yields_throw {e : Failure} : Yields (throw e) P := by
  intro text a rest heq
  cases heq

theorem Yields.bind (hx : Yields x P) (hf : ∀ a, P a → Yields (f a) Q) : Yields (x >>= f) Q := by
  intro text b rest heq
  change (x text >>= fun step => f step.1 step.2) = .ok (b, rest) at heq
  cases hstep : x text with
  | error e =>
    rw [hstep] at heq
    cases heq
  | ok step =>
    rw [hstep] at heq
    exact hf step.1 (hx _ _ _ hstep) _ _ _ heq

/-- A step of which nothing is known. -/
theorem yields_bind (hf : ∀ a, Yields (f a) Q) : Yields (x >>= f) Q :=
  Yields.bind (P := fun _ => True) (fun _ _ _ _ => trivial) fun a _ => hf a

/-- Nothing is taken where a value of another kind begins. -/
theorem yields_mismatch {c : Char} : Yields (mismatch c) P := by
  have fails {γ : Type} (y : Reader γ) :
      Yields (y >>= fun _ => throw Failure.unexpected) P := yields_bind fun _ => yields_throw
  unfold mismatch
  split
  · exact fails _
  · exact fails _
  · exact fails _
  · exact yields_bind fun _ => yields_bind fun _ => yields_bind fun _ => fails _
  · exact yields_throw
  · exact yields_throw
  · dsimp only
    split
    · exact fails _
    · exact fails _

theorem yields_required {value : Option α} : Yields (required value) fun a => value = some a := by
  cases value with
  | none => exact yields_throw
  | some a => exact yields_pure rfl

/-! ### Records -/

variable {fields : List (Field α)} {d : Discipline} {bound : Nat} {first : Bool} {a empty : α}
  {finish : α → Reader β}

theorem yields_entryName {name : List Char → Reader κ} {R : κ → Prop}
    (hname : ∀ w, Yields (name w) R) : Yields (entryName name) R := by
  have named : Yields (do
      let k ← name (← quoted)
      expect ':'
      return k) R := yields_bind fun w => (hname w).bind fun k hk => yields_bind fun _ =>
    yields_pure hk
  unfold entryName
  refine yields_bind fun next => ?_
  dsimp only
  split
  · exact yields_bind fun _ => named
  · exact named

/-- A field that a name stands for is one of the fields. -/
theorem yields_fieldNamed {w : List Char} : Yields (fieldNamed fields d a w) fun found =>
    ∀ field, found = some field → field ∈ fields := by
  have mem {field : Field α} (hfind : fields.find? (·.name.toList = w) = some field) :
      ∀ field', some field = some field' → field' ∈ fields := fun _ he =>
    Option.some.inj he ▸ List.mem_of_find?_eq_some hfind
  unfold fieldNamed
  split
  · rename_i hfind
    split
    · exact yields_throw
    · exact yields_pure (mem hfind)
  · rename_i hfind
    exact yields_pure (mem hfind)
  · exact yields_pure fun _ he => nomatch he
  · exact yields_throw

section record

variable (henter : ∀ field ∈ fields, ∀ a, P a → Yields (field.enter a) P)

include henter

theorem yields_orderedFields (ha : P a) : Yields (orderedFields a first fields) P := by
  induction fields generalizing a first with
  | nil => exact yields_pure ha
  | cons field fields ih =>
    -- A field may be entered at once or behind a comma; either way the rest is read by induction.
    have enters : Yields (do orderedFields (← field.enter a) false fields) P :=
      (henter field List.mem_cons_self a ha).bind fun b hb =>
        ih (fun field hfield => henter field (List.mem_cons_of_mem _ hfield)) hb
    have goesOn : Yields (do
        if (← peek) = some ']' then throw Failure.malformed
        orderedFields (← field.enter a) false fields) P := by
      refine yields_bind fun next => ?_
      dsimp only
      split
      · exact yields_bind fun _ => enters
      · exact enters
    unfold orderedFields
    refine yields_bind fun next => ?_
    dsimp only
    split
    · exact yields_bind fun _ => goesOn
    · split
      · exact goesOn
      · exact yields_bind fun _ => goesOn
    · split
      · exact goesOn
      · exact yields_bind fun _ => goesOn

theorem yields_enterField (ha : P a) : Yields (enterField fields d bound a) P := by
  unfold enterField
  refine (yields_entryName fun _ => yields_fieldNamed).bind fun found hfound => ?_
  cases found with
  | none => exact yields_bind fun _ => yields_pure ha
  | some field =>
    refine (henter field (hfound field rfl) a ha).bind fun b hb => ?_
    dsimp only
    split
    · exact yields_bind fun _ => yields_pure hb
    · exact yields_pure hb

theorem yields_furtherFields (ha : P a) : Yields (furtherFields fields d bound a) P := by
  induction bound generalizing a with
  | zero => exact yields_throw
  | succ bound ih =>
    unfold furtherFields
    refine yields_bind fun next => ?_
    split
    · exact yields_pure ha
    · exact yields_bind fun _ => (yields_enterField henter ha).bind fun b hb => ih hb
    · exact yields_throw

/-- What holds of the empty record and is kept by every field holds of the record that is
finished. -/
theorem yields_record (hempty : P empty) (hfinish : ∀ a, P a → Yields (finish a) Q) :
    Yields (record fields d empty finish bound) Q := by
  have ends (a : α) (ha : P a) (close : Char) : Yields (do
      let b ← finish a
      expect close
      return b) Q := (hfinish a ha).bind fun b hb => yields_bind fun _ => yields_pure hb
  unfold record
  refine yields_bind fun next => ?_
  split
  · exact yields_throw
  · exact yields_bind fun _ => (yields_orderedFields henter hempty).bind fun a ha => ends a ha _
  · refine yields_bind fun _ => yields_bind fun next => ?_
    dsimp only
    split
    · exact ends empty hempty _
    · exact (yields_enterField henter hempty).bind fun a ha =>
        (yields_furtherFields henter ha).bind fun a ha => ends a ha _
  · exact yields_mismatch

end record

/-! ### Whole texts -/

/-- The value of a text is taken from its front. -/
theorem Yields.of_read {reader : Nat → Reader α} {text : List Char}
    (hreader : Yields (reader (text.length + 1)) P) (h : read reader text = .ok a) : P a := by
  rw [read] at h
  cases hrun : (reader (text.length + 1)).run text with
  | error e =>
    rw [hrun] at h
    cases h
  | ok result =>
    obtain ⟨a', rest⟩ := result
    rw [hrun] at h
    change (if (rest.dropWhile isBlank).isEmpty then Except.ok a'
      else Except.error Failure.malformed) = Except.ok a at h
    split at h
    · cases h
      exact hreader _ _ _ hrun
    · cases h

end Transduction.Json
