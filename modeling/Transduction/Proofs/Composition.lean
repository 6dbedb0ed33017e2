/-
Composition is relational composition.

A joint path is a path of each side, and what the first side writes is what the
second one reads.  For the converse the moves of the two sides have to be put
into an order that is built: between two common steps the lone moves of the
first side come before those of the second.

* `Transducer.mem_jointMoves_iff` — the moves of a joint state are of three kinds;
* `Transducer.Joins`, `exists_joins` — a run of the composition beside the runs of the
  two sides;
* `Transducer.paths_of_jointPath`, `exists_jointPath` — joint paths and pairs of
  paths;
* `Transducer.relates_compose`, `composition_exact` — the relation of a composition;
* `Transducer.relates_composeAll` — composition of a list.
-/
import Mathlib.Data.List.ProdSigma
import Transduction.Proofs.Spelled
import Transduction.Proofs.Trim
import Transduction.Transducer.Composition

namespace Transduction.Transducer

variable {a b : Transducer} {p p' q q' : Nat} {waiting : Bool} {s s' : Joint}
  {l : Option Char × Word} {ls la lb : List (Option Char × Word)} {x y z : Word}

/-- One step of a composition: of the first side alone, of both, or of the second
side alone. -/
inductive JointMove (a b : Transducer) : Joint → Option Char × Word → Joint → Prop where
  | first {p p' q : Nat} {l : Option Char} :
      ((l, []), p') ∈ a.moves p → JointMove a b (p, q, false) (l, []) (p', q, false)
  | common {p p' q q' : Nat} {waiting : Bool} {l : Option Char} {c : Char} {w v : Word} :
      ((l, c :: w), p') ∈ a.moves p → ((some c, v), q') ∈ b.moves q →
      JointMove a b (p, q, waiting) (l, v) (p', q', false)
  | second {p q q' : Nat} {waiting : Bool} {v : Word} :
      ((none, v), q') ∈ b.moves q → JointMove a b (p, q, waiting) (none, v) (p, q', true)

theorem mem_jointMoves_iff : (l, s') ∈ jointMoves a b s ↔ JointMove a b s l s' := by
  obtain ⟨p, q, waiting⟩ := s
  simp only [jointMoves, List.mem_append, List.mem_flatMap, List.mem_filterMap]
  constructor
  · rintro (⟨⟨⟨l', w⟩, p'⟩, ha, h⟩ | ⟨⟨⟨l', v⟩, q'⟩, hb, h⟩)
    -- A left move that writes nothing goes alone, and only while the state does not wait.
    · cases w with
      | nil =>
        cases waiting
        · cases List.mem_singleton.mp h
          exact .first ha
        · simp at h
      -- One that writes a symbol takes every right move that reads it along.
      | cons c w =>
        obtain ⟨⟨⟨l₂, v⟩, q'⟩, hb, h⟩ := List.mem_filterMap.mp h
        simp only at h
        split at h
        · rename_i hl
          subst hl
          cases h
          exact .common ha hb
        · cases h
    -- A right move that reads nothing goes alone and lets the state wait.
    · split at h
      · rename_i hl
        subst hl
        cases h
        exact .second hb
      · cases h
  · rintro (ha | ⟨ha, hb⟩ | hb)
    · exact Or.inl ⟨_, ha, by simp⟩
    · exact Or.inl ⟨_, ha, List.mem_filterMap.mpr ⟨_, hb, by simp⟩⟩
    · exact Or.inr ⟨_, hb, by simp⟩

/-! ### Joint runs and pairs of runs -/

/-- A run of a composition beside the runs of the two sides that it joins. -/
inductive Joins (a b : Transducer) : Joint → List ((Option Char × Word) × Joint) → List Move →
    List Move → Joint → Prop where
  | nil (s : Joint) : Joins a b s [] [] [] s
  | first {p p' q : Nat} {l : Option Char} {steps : List ((Option Char × Word) × Joint)}
      {sa sb : List Move} {s' : Joint} : ((l, []), p') ∈ a.moves p →
      Joins a b (p', q, false) steps sa sb s' →
      Joins a b (p, q, false) (((l, []), (p', q, false)) :: steps) (((l, []), p') :: sa) sb s'
  | common {p p' q q' : Nat} {waiting : Bool} {l : Option Char} {c : Char} {w v : Word}
      {steps : List ((Option Char × Word) × Joint)} {sa sb : List Move} {s' : Joint} :
      ((l, c :: w), p') ∈ a.moves p → ((some c, v), q') ∈ b.moves q →
      Joins a b (p', q', false) steps sa sb s' →
      Joins a b (p, q, waiting) (((l, v), (p', q', false)) :: steps) (((l, c :: w), p') :: sa)
        (((some c, v), q') :: sb) s'
  | second {p q q' : Nat} {waiting : Bool} {v : Word}
      {steps : List ((Option Char × Word) × Joint)} {sa sb : List Move} {s' : Joint} :
      ((none, v), q') ∈ b.moves q → Joins a b (p, q', true) steps sa sb s' →
      Joins a b (p, q, waiting) (((none, v), (p, q', true)) :: steps) sa (((none, v), q') :: sb) s'

section joins

variable {steps : List ((Option Char × Word) × Joint)} {sa sb : List Move}

/-- Every run of a composition joins a run of each side. -/
theorem exists_joins (h : Trail (jointMoves a b) s steps s') :
    ∃ sa sb, Joins a b s steps sa sb s' := by
  induction h with
  | nil s => exact ⟨[], [], .nil s⟩
  | cons hmove _ ih =>
    obtain ⟨sa, sb, hjoins⟩ := ih
    cases mem_jointMoves_iff.mp hmove with
    | first ha => exact ⟨_, _, .first ha hjoins⟩
    | common ha hb => exact ⟨_, _, .common ha hb hjoins⟩
    | second hb => exact ⟨_, _, .second hb hjoins⟩

theorem Joins.trails (h : Joins a b s steps sa sb s') :
    Trail a.moves s.1 sa s'.1 ∧ Trail b.moves s.2.1 sb s'.2.1 := by
  induction h with
  | nil s => exact ⟨.nil _, .nil _⟩
  | first ha _ ih => exact ⟨.cons ha ih.1, ih.2⟩
  | common ha hb _ ih => exact ⟨.cons ha ih.1, .cons hb ih.2⟩
  | second hb _ ih => exact ⟨ih.1, .cons hb ih.2⟩

/-- The runs of the two sides are joined by the word in between. -/
theorem Joins.words_eq (hletter : ∀ q l w t, ((l, w), t) ∈ a.moves q → w.length ≤ 1)
    (h : Joins a b s steps sa sb s') :
    readsOf (sa.map (·.1)) = readsOf (steps.map (·.1)) ∧
      writesOf (sa.map (·.1)) = readsOf (sb.map (·.1)) ∧
      writesOf (sb.map (·.1)) = writesOf (steps.map (·.1)) := by
  induction h with
  | nil s => exact ⟨rfl, rfl, rfl⟩
  | first _ _ ih =>
    obtain ⟨hreads, hmiddle, hwrites⟩ := ih
    exact ⟨by simp [hreads], by simp [hmiddle], by simp [hwrites]⟩
  | common ha _ _ ih =>
    obtain ⟨hreads, hmiddle, hwrites⟩ := ih
    obtain rfl := List.eq_nil_of_length_eq_zero
      (Nat.le_zero.mp (Nat.le_of_succ_le_succ (hletter _ _ _ _ ha)))
    exact ⟨by simp [hreads], by simp [hmiddle], by simp [hwrites]⟩
  | second _ _ ih =>
    obtain ⟨hreads, hmiddle, hwrites⟩ := ih
    exact ⟨hreads, by simp [hmiddle], by simp [hwrites]⟩

end joins

/-- A joint path is a path of each side, joined by the word in between. -/
theorem paths_of_jointPath (hletter : ∀ q l w t, ((l, w), t) ∈ a.moves q → w.length ≤ 1)
    (h : Path (jointMoves a b) s ls s') :
    ∃ la lb, Path a.moves s.1 la s'.1 ∧ Path b.moves s.2.1 lb s'.2.1 ∧ readsOf la = readsOf ls ∧
      writesOf la = readsOf lb ∧ writesOf lb = writesOf ls := by
  obtain ⟨steps, htrail, rfl⟩ := path_iff_exists_trail.mp h
  obtain ⟨sa, sb, hjoins⟩ := exists_joins htrail
  exact ⟨_, _, hjoins.trails.1.path, hjoins.trails.2.path, hjoins.words_eq hletter⟩

/-- The second side may make its silent moves alone, and then whatever follows. -/
theorem exists_jointPath_of_silent (a : Transducer) (p : Nat) (waiting : Bool)
    (hb : Path b.moves q lb q') (hs : readsOf lb = []) :
    ∃ ls waiting', Path (jointMoves a b) (p, q, waiting) ls (p, q', waiting') ∧
      readsOf ls = [] ∧ writesOf ls = writesOf lb := by
  induction hb generalizing waiting with
  | nil q => exact ⟨[], waiting, .nil _, rfl, rfl⟩
  | @cons q t q' l lb hmove _ ih =>
    obtain ⟨c, v⟩ := l
    cases c with
    | some c => simp at hs
    | none =>
      obtain ⟨ls, waiting', hpath, hreads, hwrites⟩ := ih true (by simpa using hs)
      exact ⟨(none, v) :: ls, waiting', .cons (mem_jointMoves_iff.mpr (.second hmove)) hpath,
        by simp [hreads], by simp [hwrites]⟩

/-- A path that reads something makes silent moves up to the move that reads the
first symbol. -/
theorem exists_reading_move {next : Nat → List ((Option Char × Word) × Nat)} {c : Char} {w : Word}
    (h : Path next q ls q') (hs : readsOf ls = c :: w) :
    ∃ front t v t' back, Path next q front t ∧ readsOf front = [] ∧ ((some c, v), t') ∈ next t ∧
      Path next t' back q' ∧ readsOf back = w ∧
      writesOf ls = writesOf front ++ (v ++ writesOf back) := by
  induction h with
  | nil => simp at hs
  | @cons q t q' l ls hmove hpath ih =>
    obtain ⟨d, v⟩ := l
    cases d with
    | none =>
      obtain ⟨front, t₁, v₁, t₂, back, hfront, hreads, hmem, hback, hw, hwrites⟩ :=
        ih (by simpa using hs)
      exact ⟨(none, v) :: front, t₁, v₁, t₂, back, .cons hmove hfront, by simpa using hreads, hmem,
        hback, hw, by simp [hwrites]⟩
    | some d =>
      simp only [readsOf_cons, Option.toList_some, List.singleton_append, List.cons.injEq] at hs
      obtain ⟨rfl, rfl⟩ := hs
      exact ⟨[], q, v, t, ls, .nil q, rfl, hmove, hpath, rfl, by simp⟩

/-- Paths joined by the word in between make a joint path: first the lone moves of
the first side, then those of the second side up to the next common step. -/
theorem exists_jointPath (hletter : ∀ q l w t, ((l, w), t) ∈ a.moves q → w.length ≤ 1)
    (ha : Path a.moves p la p') (hb : Path b.moves q lb q') (h : writesOf la = readsOf lb) :
    ∃ ls waiting', Path (jointMoves a b) (p, q, false) ls (p', q', waiting') ∧
      readsOf ls = readsOf la ∧ writesOf ls = writesOf lb := by
  -- The induction is on the left path.  What it writes symbol by symbol the right path reads,
  -- with silent moves in between, which the composition takes one by one.
  induction ha generalizing q lb with
  | nil p => exact exists_jointPath_of_silent a p false hb h.symm
  | @cons p t p' l la hmove _ ih =>
    obtain ⟨l, w⟩ := l
    match w with
    | [] =>
      obtain ⟨ls, waiting', hpath, hreads, hwrites⟩ := ih hb (by simpa using h)
      exact ⟨(l, []) :: ls, waiting', .cons (mem_jointMoves_iff.mpr (.first hmove)) hpath,
        by simp [hreads], by simp [hwrites]⟩
    | [c] =>
      obtain ⟨front, t₁, v, t₂, back, hfront, hsilent, hread, hback, hrest, hwrites⟩ :=
        exists_reading_move hb (show readsOf lb = c :: writesOf la by rw [← h]; rfl)
      obtain ⟨ls₁, waiting₁, hpath₁, hreads₁, hwrites₁⟩ :=
        exists_jointPath_of_silent a p false hfront hsilent
      obtain ⟨ls₂, waiting₂, hpath₂, hreads₂, hwrites₂⟩ := ih hback hrest.symm
      refine ⟨ls₁ ++ (l, v) :: ls₂, waiting₂, hpath₁.append
        (.cons (mem_jointMoves_iff.mpr (.common hmove hread)) hpath₂), ?_, ?_⟩
      · simp [hreads₁, hreads₂]
      · simp [hwrites₁, hwrites₂, hwrites]
    | c :: d :: w => simpa using hletter _ _ _ _ hmove

/-! ### The composition -/

/-- The joint states that can be met. -/
def jointStates (a b : Transducer) : List Joint :=
  List.range a.size ×ˢ (List.range b.size ×ˢ [false, true])

theorem mem_jointStates : s ∈ jointStates a b ↔ s.1 < a.size ∧ s.2.1 < b.size := by
  obtain ⟨p, q, waiting⟩ := s
  simp [jointStates]

theorem length_jointStates : (jointStates a b).length = 2 * a.size * b.size := by
  simp only [jointStates, List.length_product, List.length_range, List.length_cons,
    List.length_nil]
  rw [Nat.mul_comm 2, Nat.mul_assoc, Nat.mul_comm 2]

theorem mem_jointStates_of_initial (hs : s ∈ a.initialStates.flatMap fun p =>
      b.initialStates.map fun q => (p, q, false)) : s ∈ jointStates a b := by
  obtain ⟨p, hp, hs⟩ := List.mem_flatMap.mp hs
  obtain ⟨q, hq, rfl⟩ := List.mem_map.mp hs
  exact mem_jointStates.mpr ⟨Machine.lt_size_of_mem_initialStates hp,
    Machine.lt_size_of_mem_initialStates hq⟩

/-- The moves of a joint state of the two sides lead to such states. -/
theorem mem_jointStates_of_move (ha : a.Closed) (hb : b.Closed) (hs : s ∈ jointStates a b)
    (h : (l, s') ∈ jointMoves a b s) : s' ∈ jointStates a b := by
  obtain ⟨hp, hq⟩ := mem_jointStates.mp hs
  refine mem_jointStates.mpr ?_
  cases mem_jointMoves_iff.mp h with
  | first hmem => exact ⟨ha _ _ _ hmem, hq⟩
  | common hmem hmem' => exact ⟨ha _ _ _ hmem, hb _ _ _ hmem'⟩
  | second hmem => exact ⟨hp, hb _ _ _ hmem⟩

theorem acceptsLabels_composeUntrimmed (ha : a.Closed) (hb : b.Closed) :
    (composeUntrimmed a b).AcceptsLabels ls ↔ ∃ s s' : Joint,
      (a.spelled.isInitial s.1 && b.isInitial s.2.1 && !s.2.2) = true ∧
      Path (jointMoves a.spelled b) s ls s' ∧
      (a.spelled.isAccepting s'.1 && b.isAccepting s'.2.1) = true := by
  refine Machine.acceptsLabels_explored_iff (P := (· ∈ jointStates a.spelled b))
    Function.injective_id (fun s => mem_jointStates_of_initial)
    (fun s hs l s' => mem_jointStates_of_move (closed_spelled ha) hb hs) (fun s hs => hs)
    (Nat.le_of_eq length_jointStates) ?_
  · rintro ⟨p, q, waiting⟩ h
    simp only [Bool.and_eq_true, Bool.not_eq_true'] at h
    obtain ⟨⟨hp, hq⟩, rfl⟩ := h
    exact List.mem_flatMap.mpr ⟨p, Machine.mem_initialStates.mpr hp,
      List.mem_map.mpr ⟨q, Machine.mem_initialStates.mpr hq, rfl⟩⟩

theorem closed_composeUntrimmed : (composeUntrimmed a b).Closed :=
  Machine.closed_explored Function.injective_id

theorem wellFormed_compose : (compose a b).WellFormed :=
  Machine.wellFormed_trim closed_composeUntrimmed

/-- A composition relates two words when some word in between joins them. -/
theorem relates_compose (ha : a.Closed) (hb : b.Closed) :
    (compose a b).Relates x z ↔ ∃ y, a.Relates x y ∧ b.Relates y z := by
  have hletter := fun q l w t (h : ((l, w), t) ∈ a.spelled.moves q) =>
    length_le_one_of_mem_moves_spelled ha h
  simp only [← relates_spelled ha (x := x)]
  simp only [relates_iff, compose, trim, Machine.acceptsLabels_trim closed_composeUntrimmed,
    acceptsLabels_composeUntrimmed ha hb]
  constructor
  · rintro ⟨ls, ⟨s, s', hs, hpath, hs'⟩, rfl, rfl⟩
    simp only [Bool.and_eq_true] at hs hs'
    obtain ⟨la, lb, hpa, hpb, hreads, hmiddle, hwrites⟩ := paths_of_jointPath hletter hpath
    exact ⟨writesOf la, ⟨la, ⟨_, _, hs.1.1, hpa, hs'.1⟩, hreads, rfl⟩,
      lb, ⟨_, _, hs.1.2, hpb, hs'.2⟩, hmiddle.symm, hwrites⟩
  · rintro ⟨y, ⟨la, ⟨p, p', hp, hpa, hp'⟩, rfl, hy⟩, lb, ⟨q, q', hq, hpb, hq'⟩, rfl, rfl⟩
    obtain ⟨ls, waiting', hpath, hreads, hwrites⟩ := exists_jointPath hletter hpa hpb hy
    exact ⟨ls, ⟨(p, q, false), (p', q', waiting'), by simp [hp, hq], hpath, by simp [hp', hq']⟩,
      hreads, hwrites⟩

/-- The runs of a composition read and write exactly the pairs of words that some word
in between joins, whatever moves the two sides make alone. -/
theorem composition_exact (a b : Transducer) (ha : a.WellFormed) (hb : b.WellFormed) :
    (compose a b).WellFormed ∧
      ∀ x z, (compose a b).Relates x z ↔ ∃ y, a.Relates x y ∧ b.Relates y z :=
  ⟨wellFormed_compose, fun _ _ => relates_compose ha.closed hb.closed⟩

/-- Writes any number of `x`. -/
def writesMany : Transducer where
  nodes := #[{ initial := true, accepting := true, moves := [((none, ['x']), 0)] }]

/-- Writes one `y` for two `x`. -/
def halves : Transducer where
  nodes := #[{ initial := true, accepting := true, moves := [((some 'x', []), 1)] },
    { moves := [((some 'x', []), 2)] }, { moves := [((none, ['y']), 0)] }]

/-- Of all the words in between, four `x` give two `y`. -/
theorem composition_exact_halves :
    writesMany.WellFormed ∧ halves.WellFormed ∧
      (compose writesMany halves).Relates [] ['y', 'y'] := by
  have ha : writesMany.WellFormed := by decide
  have hb : halves.WellFormed := by decide
  have written : ((none, ['x']), 0) ∈ writesMany.moves 0 := List.mem_cons_self
  have many : Path writesMany.moves 0 (List.replicate 4 (none, ['x'])) 0 :=
    .cons written (.cons written (.cons written (.single written)))
  have pair : Path halves.moves 0 [(some 'x', []), (some 'x', []), (none, ['y'])] 0 :=
    .cons (t := 1) List.mem_cons_self (.cons (t := 2) List.mem_cons_self
      (.single List.mem_cons_self))
  refine ⟨ha, hb, ((composition_exact writesMany halves ha hb).2 _ _).mpr ?_⟩
  exact ⟨['x', 'x', 'x', 'x'], relates_iff.mpr ⟨_, ⟨0, 0, rfl, many, rfl⟩, rfl, rfl⟩,
    relates_iff.mpr ⟨_, ⟨0, 0, rfl, pair.append pair, rfl⟩, rfl, rfl⟩⟩

/-- The words that relations link one after the other. -/
def RelatesThrough : List Transducer → Word → Word → Prop
  | [], x, z => x = z
  | m :: ms, x, z => ∃ y, m.Relates x y ∧ RelatesThrough ms y z

theorem wellFormed_composeAll {others : List Transducer} (ha : a.WellFormed) :
    (composeAll a others).WellFormed := by
  induction others generalizing a with
  | nil => exact ha
  | cons b others ih => exact ih wellFormed_compose

/-- Composition of a list links its relations one after the other. -/
theorem relates_composeAll {others : List Transducer} (ha : a.WellFormed)
    (h : ∀ m ∈ others, m.WellFormed) :
    (composeAll a others).Relates x z ↔ ∃ y, a.Relates x y ∧ RelatesThrough others y z := by
  induction others generalizing a with
  | nil => simp [composeAll, RelatesThrough]
  | cons b others ih =>
    have step := ih (a := compose a b) wellFormed_compose fun m hm =>
      h m (List.mem_cons_of_mem _ hm)
    simp only [composeAll, List.foldl_cons] at step ⊢
    rw [step]
    simp only [relates_compose ha.closed (h b List.mem_cons_self).closed, RelatesThrough]
    constructor
    · rintro ⟨y, ⟨y', h1, h2⟩, h3⟩
      exact ⟨y', h1, y, h2, h3⟩
    · rintro ⟨y', h1, y, h2, h3⟩
      exact ⟨y, ⟨y', h1, h2⟩, h3⟩

end Transduction.Transducer
