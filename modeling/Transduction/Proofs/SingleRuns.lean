/-
Composition adds no runs.

If no word is read by two accepted runs of the first side, nor by two of the second, then none is
read by two of the composition.  A run of the composition joins a run of each side.  The input fixes
the run of the first side, what that one writes fixes the run of the second, and the mark of the
joint states leaves a single order in which the two are joined:

* `Transducer.ReadsOnce` — no word is read by two accepted runs;
* `Transducer.Choiceless.readsOnce` — so it is where the next symbol leaves no choice;
* `Transducer.Expands.unique`, `ReadsOnce.spelled` — spelling adds no runs;
* `Transducer.Joins.unique` — two runs are joined in a single order;
* `Transducer.ReadsOnce.compose`, `readsOnce_compose` — the composition.
-/
import Mathlib.Data.List.Forall2
import Transduction.Proofs.Ambiguity
import Transduction.Proofs.Composition
import Transduction.Proofs.AscendingMoves

namespace Transduction.Transducer

/-- No word is read by two accepted runs, whatever silent steps they take. -/
def ReadsOnce (m : Transducer) : Prop :=
  ∀ w p p' steps steps', Machine.Accepted m p steps → Machine.Accepted m p' steps' →
    inputOf steps = w → inputOf steps' = w → p = p' ∧ steps = steps'

variable {m a b s : Transducer} {size p q r t : Nat} {l l' : Option Char} {w w' : Word}

theorem readsOnce_iff : m.ReadsOnce ↔
    ∀ w, Unambiguous m.moves m.isInitial m.isAccepting fun ls => readsOf ls = w := by
  simp only [ReadsOnce, Unambiguous, Machine.accepted_iff_spans, inputOf_eq]

/-! ### A criterion -/

/-- The next symbol, or the end of the word, leaves no choice: a move that reads nothing is the only
one, and its state does not accept; and there is at most one move for each symbol. -/
def NoChoiceAt (m : Transducer) (q : Nat) : Prop :=
  (∀ move ∈ m.moves q, ∀ move' ∈ m.moves q,
    move.1.1 = none ∨ move.1.1 = move'.1.1 → move = move') ∧
  (m.isAccepting q = true → ∀ move ∈ m.moves q, move.1.1 ≠ none)

instance (m : Transducer) (q : Nat) : Decidable (m.NoChoiceAt q) :=
  inferInstanceAs (Decidable (_ ∧ _))

/-- There is a single initial state, and no state leaves a choice. -/
@[mk_iff] structure Choiceless (m : Transducer) : Prop where
  initial_eq : ∀ p < m.size, ∀ p' < m.size, m.isInitial p = true → m.isInitial p' = true → p = p'
  noChoiceAt : ∀ q < m.size, m.NoChoiceAt q

instance : DecidablePred Choiceless := fun m => decidable_of_iff' _ (choiceless_iff m)

theorem silent_of_readsOf_eq_nil {l : Option Char × Word} {ls : List (Option Char × Word)}
    (h : readsOf (l :: ls) = []) : l.1 = none := by
  rw [readsOf_cons, List.append_eq_nil_iff] at h
  exact Option.toList_eq_nil_iff.mp h.1

theorem Choiceless.steps_eq (hm : m.Choiceless) {steps steps' : List Move} {r' : Nat}
    (h : Trail m.moves q steps r) (h' : Trail m.moves q steps' r') (hr : m.isAccepting r = true)
    (hr' : m.isAccepting r' = true)
    (hreads : readsOf (steps.map (·.1)) = readsOf (steps'.map (·.1))) : steps = steps' := by
  have reads_on {q : Nat} {move : Move} (hq : m.isAccepting q = true) (hmove : move ∈ m.moves q) :
      move.1.1 ≠ none :=
    (hm.noChoiceAt q (Machine.lt_size_of_mem_moves hmove)).2 hq move hmove
  have move_eq {q : Nat} {move move' : Move} (hmove : move ∈ m.moves q)
      (hmove' : move' ∈ m.moves q) (h : move.1.1 = none ∨ move.1.1 = move'.1.1) : move = move' :=
    (hm.noChoiceAt q (Machine.lt_size_of_mem_moves hmove)).1 move hmove move' hmove' h
  -- The induction is on the first run.  At the end neither run may go on, since an accepting
  -- state moves on a symbol only.
  induction h generalizing steps' with
  | nil q =>
    cases h' with
    | nil => rfl
    | cons hmove' _ => exact absurd (silent_of_readsOf_eq_nil hreads.symm) (reads_on hr hmove')
  | @cons q t _ l steps hmove _ ih =>
    cases h' with
    | nil => exact absurd (silent_of_readsOf_eq_nil hreads) (reads_on hr' hmove)
    | @cons _ t' _ l' steps' hmove' htrail' =>
      simp only [List.map_cons, readsOf_cons] at hreads
      -- A silent move has no rival at all, and any other one none on its symbol.
      have same : (l, t) = (l', t') := by
        cases hl : l.1 with
        | none => exact move_eq hmove hmove' (Or.inl hl)
        | some c =>
          cases hl' : l'.1 with
          | none => exact (move_eq hmove' hmove (Or.inl hl')).symm
          | some c' =>
            simp only [hl, hl', Option.toList_some, List.singleton_append, List.cons.injEq]
              at hreads
            exact move_eq hmove hmove' (Or.inr (by simp only [hl, hl', hreads.1]))
      obtain ⟨rfl, rfl⟩ := Prod.mk.inj same
      rw [ih htrail' hr (List.append_cancel_left hreads)]

/-- No word is read by two runs if the next symbol leaves no choice. -/
theorem Choiceless.readsOnce (hm : m.Choiceless) : m.ReadsOnce := by
  rintro w p p' steps steps' ⟨hp, r, hrun, hr⟩ ⟨hp', r', hrun', hr'⟩ hw hw'
  obtain rfl := hm.initial_eq p (Machine.lt_size_of_isInitial hp) p'
    (Machine.lt_size_of_isInitial hp') hp hp'
  rw [Machine.run_iff_trail] at hrun hrun'
  rw [inputOf_eq] at hw hw'
  exact ⟨rfl, hm.steps_eq hrun hrun' hr hr' (hw.trans hw'.symm)⟩

/-! ### Spelling -/

/-- A spelled move stands for a single move between old states. -/
theorem Stands.unique {move : Move} {t' : Nat} (h : Stands s size move l w t)
    (h' : Stands s size move l' w' t') (ht : t < size) (ht' : t' < size) :
    l = l' ∧ w = w' ∧ t = t' := by
  induction h generalizing l' w' t' with
  | nil l t =>
    cases h' with
    | nil => exact ⟨rfl, rfl, rfl⟩
  | single l c t =>
    cases h' with
    | single => exact ⟨rfl, rfl, rfl⟩
    | cons hfresh => omega
  | cons hfresh hmoves _ ih =>
    cases h' with
    | single => omega
    | cons _ hmoves' hs' =>
      -- both chains go on with the only move of the fresh state
      obtain rfl := List.singleton_inj.mp (hmoves.symm.trans hmoves')
      obtain ⟨_, hrest, rfl⟩ := ih hs' ht ht'
      exact ⟨rfl, congrArg _ hrest, rfl⟩

theorem StandsFor.unique {old old' move : Move} (h : StandsFor s size old move)
    (h' : StandsFor s size old' move) (ht : old.2 < size) (ht' : old'.2 < size) : old = old' := by
  obtain ⟨hreads, hwrites, htarget⟩ := Stands.unique h h' ht ht'
  exact Prod.ext (Prod.ext hreads hwrites) htarget

/-- Where no item is repeated and different items have different partners, an item has a single
partner. -/
theorem eq_of_forall₂_nodup {α β : Type} {R : α → β → Prop} {xs : List α} {ys : List β} {x : α}
    {y y' : β} (h : List.Forall₂ R xs ys) (hxs : xs.Nodup)
    (hunique : ∀ x ∈ xs, ∀ x' ∈ xs, ∀ y, R x y → R x' y → x = x') (hx : x ∈ xs) (hy : y ∈ ys)
    (hy' : y' ∈ ys) (hxy : R x y) (hxy' : R x y') : y = y' := by
  obtain ⟨hlength, hall⟩ := List.forall₂_iff_get.mp h
  obtain ⟨i, hi, rfl⟩ := List.getElem_of_mem hy
  obtain ⟨j, hj, rfl⟩ := List.getElem_of_mem hy'
  have hxi := hunique x hx _ (List.get_mem _ _) _ hxy (hall i (hlength ▸ hi) hi)
  have hxj := hunique x hx _ (List.get_mem _ _) _ hxy' (hall j (hlength ▸ hj) hj)
  obtain rfl : i = j := hxs.getElem_inj_iff.mp (hxi.symm.trans hxj)
  rfl

/-- A move of an old state has a single move that stands for it. -/
theorem move_eq_of_standsFor (hm : m.Closed) (hdistinct : Machine.Distinct m)
    {old move move' : Move} (hold : old ∈ m.moves q) (hmove : move ∈ m.spelled.moves q)
    (hmove' : move' ∈ m.spelled.moves q) (hs : StandsFor m.spelled m.size old move)
    (hs' : StandsFor m.spelled m.size old move') : move = move' := by
  obtain ⟨n, n', hn, hn', hspelled⟩ := exists_spelledNode (Machine.lt_size_of_mem_moves hold)
  obtain ⟨moves, hstands, hmoves⟩ := hspelled.standsFor
  have moves_eq : m.moves q = n.moves := by rw [Machine.moves, hn, Option.elim_some]
  rw [Machine.moves, hn', Option.elim_some, hmoves, mem_ascending] at hmove hmove'
  refine eq_of_forall₂_nodup hstands (moves_eq ▸ hdistinct q) ?_ (moves_eq ▸ hold) hmove hmove'
    hs hs'
  intro x hx x' hx' y h h'
  rw [← moves_eq] at hx hx'
  exact StandsFor.unique h h' (hm _ _ _ hx) (hm _ _ _ hx')

theorem Chain.unique {steps steps' : List Move} (h : Chain s size q steps t)
    (h' : Chain s size q steps' t) (ht : t < size) : steps = steps' := by
  induction h generalizing steps' with
  | nil t =>
    cases h' with
    | nil => rfl
    | cons hfresh => omega
  | cons hfresh hmoves _ ih =>
    cases h' with
    | nil => omega
    | cons _ hmoves' hchain' =>
      obtain rfl := List.singleton_inj.mp (hmoves.symm.trans hmoves')
      rw [ih hchain' ht]

/-- A run is expanded in a single way. -/
theorem Expands.unique (hm : m.Closed) (hdistinct : Machine.Distinct m)
    {steps expanded expanded' : List Move} (h : Expands m q steps expanded)
    (h' : Expands m q steps expanded') : expanded = expanded' := by
  induction h generalizing expanded' with
  | nil =>
    cases h' with
    | nil => rfl
  | cons hold hmove hs hchain _ _ _ ih =>
    cases h' with
    | cons _ hmove' hs' hchain' _ _ hrest' =>
      obtain rfl := move_eq_of_standsFor hm hdistinct hold hmove hmove' hs hs'
      rw [hchain.unique hchain' (hm _ _ _ hold), ih hrest']

/-- Spelling adds no runs. -/
theorem ReadsOnce.spelled (hm : m.Closed) (hdistinct : Machine.Distinct m) (h : m.ReadsOnce) :
    m.spelled.ReadsOnce := by
  have lift {p : Nat} {expanded : List Move} (hexpanded : Machine.Accepted m.spelled p expanded) :
      ∃ steps, Machine.Accepted m p steps ∧ Expands m p steps expanded := by
    obtain ⟨hp, r, htrail, hr⟩ := hexpanded
    rw [isInitial_spelled hm] at hp
    rw [isAccepting_spelled hm] at hr
    obtain ⟨steps, hsteps, hexpands⟩ := exists_expands hm (Machine.lt_size_of_isInitial hp)
      (Machine.lt_size_of_isAccepting hr) (Machine.run_iff_trail.mp htrail)
    exact ⟨steps, ⟨hp, r, Machine.run_iff_trail.mpr hsteps, hr⟩, hexpands⟩
  intro w p p' expanded expanded' hrun hrun' hw hw'
  obtain ⟨steps, hsteps, hexpands⟩ := lift hrun
  obtain ⟨steps', hsteps', hexpands'⟩ := lift hrun'
  rw [inputOf_eq, hexpands.words_eq.1, ← inputOf_eq] at hw
  rw [inputOf_eq, hexpands'.words_eq.1, ← inputOf_eq] at hw'
  obtain ⟨rfl, rfl⟩ := h w p p' steps steps' hsteps hsteps' hw hw'
  exact ⟨rfl, hexpands.unique hm hdistinct hexpands'⟩

/-! ### Joining two runs -/

section joins

variable {k k' e e' : Joint} {steps steps' : List ((Option Char × Word) × Joint)}
  {sa sb : List Move}

/-- With the mark set, the next step of the first side is a common one. -/
theorem Joins.writes_of_waiting {move : Move} (h : Joins a b k steps sa sb e)
    (hk : k.2.2 = true) (hsa : sa.head? = some move) : move.1.2 ≠ [] := by
  induction h with
  | nil => cases hsa
  | first => cases hk
  | common =>
    cases hsa
    exact List.cons_ne_nil _ _
  | second _ _ ih => exact ih rfl hsa

/-- Two runs are joined in a single order. -/
theorem Joins.unique (h : Joins a b k steps sa sb e) (h' : Joins a b k steps' sa sb e') :
    steps = steps' := by
  induction h generalizing steps' e' with
  | nil =>
    cases h' with
    | nil => rfl
  | first _ _ ih =>
    cases h' with
    | first _ hrest' => rw [ih hrest']
    | second _ hrest' => exact absurd rfl (hrest'.writes_of_waiting rfl rfl)
  | common _ _ _ ih =>
    cases h' with
    | common _ _ hrest' => rw [ih hrest']
  | second _ hrest ih =>
    cases h' with
    | first => exact absurd rfl (hrest.writes_of_waiting rfl rfl)
    | second _ hrest' => rw [ih hrest']

/-- The joint states of two sides that read each word once do so, too. -/
theorem unambiguous_jointMoves (hletter : ∀ q l w t, ((l, w), t) ∈ a.moves q → w.length ≤ 1)
    (ha : a.ReadsOnce) (hb : b.ReadsOnce) (w : Word) :
    Unambiguous (jointMoves a b) (fun (p, q, waiting) => a.isInitial p && b.isInitial q && !waiting)
      (fun (p, q, _) => a.isAccepting p && b.isAccepting q) fun ls => readsOf ls = w := by
  rw [readsOnce_iff] at ha hb
  rintro ⟨p, q, waiting⟩ ⟨p', q', waiting'⟩ steps steps' ⟨hk, e, htrail, he⟩ ⟨hk', e', htrail', he'⟩
    hw hw'
  simp only [Bool.and_eq_true, Bool.not_eq_true'] at hk hk' he he'
  obtain ⟨⟨hp, hq⟩, rfl⟩ := hk
  obtain ⟨⟨hp', hq'⟩, rfl⟩ := hk'
  obtain ⟨sa, sb, hjoins⟩ := exists_joins htrail
  obtain ⟨sa', sb', hjoins'⟩ := exists_joins htrail'
  obtain ⟨hreads, hmiddle, _⟩ := hjoins.words_eq hletter
  obtain ⟨hreads', hmiddle', _⟩ := hjoins'.words_eq hletter
  -- the input fixes the run of the first side, and its output that of the second
  obtain ⟨rfl, rfl⟩ := ha w p p' sa sa' ⟨hp, _, hjoins.trails.1, he.1⟩
    ⟨hp', _, hjoins'.trails.1, he'.1⟩ (hreads.trans hw) (hreads'.trans hw')
  obtain ⟨rfl, rfl⟩ := hb _ q q' sb sb' ⟨hq, _, hjoins.trails.2, he.2⟩
    ⟨hq', _, hjoins'.trails.2, he'.2⟩ hmiddle.symm hmiddle'.symm
  exact ⟨rfl, hjoins.unique hjoins'⟩

end joins

/-! ### The composition -/

/-- Composition adds no runs, if the first side lists its moves once. -/
theorem ReadsOnce.compose (hclosed : a.Closed) (hdistinct : Machine.Distinct a) (ha : a.ReadsOnce)
    (hb : b.ReadsOnce) : (compose a b).ReadsOnce := by
  have hletter := fun q l w t (h : ((l, w), t) ∈ a.spelled.moves q) =>
    length_le_one_of_mem_moves_spelled hclosed h
  refine readsOnce_iff.mpr fun w => Machine.unambiguous_trim ?_
  exact Machine.unambiguous_explored Function.injective_id
    (unambiguous_jointMoves hletter (ha.spelled hclosed hdistinct) hb w)

/-- If no word is read by two accepted runs of either side, then none is read by two accepted runs
of the composition, whatever steps these take without reading; and no pair of words that the two
sides link is lost. -/
theorem readsOnce_compose (ha : Obtained (.transducer a)) (hb : Obtained (.transducer b))
    (hra : a.ReadsOnce) (hrb : b.ReadsOnce) :
    (compose a b).ReadsOnce ∧
      ∀ x z, (compose a b).Relates x z ↔ ∃ y, a.Relates x y ∧ b.Relates y z := by
  have hclosed {m : Transducer} (hm : Obtained (.transducer m)) : m.Closed :=
    Machine.WellFormed.closed (wellFormed_of_obtained hm)
  exact ⟨hra.compose (hclosed ha) (distinct_of_obtained ha) hrb,
    fun _ _ => relates_compose (hclosed ha) (hclosed hb)⟩

/-- Reads `pq` over and over, and writes `x` for the first symbol and `yz` behind the second. -/
def behind : Transducer where
  nodes := #[{ initial := true, accepting := true, moves := [((some 'p', ['x']), 1)] },
    { moves := [((some 'q', []), 2)] }, { moves := [((none, ['y', 'z']), 0)] }]

/-- Reads `xyz` over and over, with a step behind `x` that reads nothing. -/
def counted : Transducer where
  nodes := #[{ initial := true, accepting := true, moves := [((some 'x', ['1']), 1)] },
    { moves := [((none, ['2']), 2)] }, { moves := [((some 'y', []), 3)] },
    { moves := [((some 'z', ['3']), 0)] }]

theorem obtained_of_declare {size : Nat} {initial finals : List Nat}
    {arcs : List (Nat × (Option Char × Word) × Nat)}
    (h : declare size initial finals arcs = .ok m) : Obtained (.transducer m) :=
  .of (.declareTransducer size initial finals arcs) (fun _ hu => absurd hu List.not_mem_nil)
    (by rw [Operation.result, h]; rfl)

theorem obtained_behind : Obtained (.transducer behind) :=
  obtained_of_declare (by decide : declare 3 [0] [0] [(0, (some 'p', ['x']), 1),
    (1, (some 'q', []), 2), (2, (none, ['y', 'z']), 0)] = .ok behind)

theorem obtained_counted : Obtained (.transducer counted) :=
  obtained_of_declare (by decide : declare 4 [0] [0] [(0, (some 'x', ['1']), 1),
    (1, (none, ['2']), 2), (2, (some 'y', []), 3), (3, (some 'z', ['3']), 0)] = .ok counted)

/-- The step of `behind` that reads `q` and the step of `counted` that writes `2` may be taken in
either order, and the composition has a run with one of them. -/
theorem readsOnce_compose_behind : Obtained (.transducer behind) ∧ Obtained (.transducer counted) ∧
    behind.ReadsOnce ∧ counted.ReadsOnce ∧ (compose behind counted).ReadsOnce ∧
      (compose behind counted).Relates ['p', 'q'] ['1', '2', '3'] := by
  have hbehind : behind.Choiceless := by decide
  have hcounted : counted.Choiceless := by decide
  have reads : Path behind.moves 0 [(some 'p', ['x']), (some 'q', []), (none, ['y', 'z'])] 0 :=
    .cons (t := 1) List.mem_cons_self (.cons (t := 2) List.mem_cons_self
      (.single List.mem_cons_self))
  have counts : Path counted.moves 0
      [(some 'x', ['1']), (none, ['2']), (some 'y', []), (some 'z', ['3'])] 0 :=
    .cons (t := 1) List.mem_cons_self (.cons (t := 2) List.mem_cons_self
      (.cons (t := 3) List.mem_cons_self (.single List.mem_cons_self)))
  obtain ⟨honce, hrelates⟩ :=
    readsOnce_compose obtained_behind obtained_counted hbehind.readsOnce hcounted.readsOnce
  refine ⟨obtained_behind, obtained_counted, hbehind.readsOnce, hcounted.readsOnce, honce,
    (hrelates _ _).mpr ⟨['x', 'y', 'z'], ?_, ?_⟩⟩
  · exact relates_iff.mpr ⟨_, ⟨0, 0, rfl, reads, rfl⟩, rfl, rfl⟩
  · exact relates_iff.mpr ⟨_, ⟨0, 0, rfl, counts, rfl⟩, rfl, rfl⟩

end Transduction.Transducer
