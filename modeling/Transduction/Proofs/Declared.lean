/-
Declared machines and automata are well formed.

A declaration is checked entry by entry, and only what passes becomes part of the machine.
Of a deterministic automaton, a transition that passes is set in the row of its source.  Rows
therefore stay in ascending order and inside the automaton:

* `Machine.wellFormed_declare` — a declared machine is well formed;
* `Row.of_mem_set`, `Row.set_pairwise` — what setting one target does to a row, and
  `Row.foldl_set_of_perm` — an ascending row is found again when its moves are entered in any order;
* `Dfa.SoundRows`, `of_enter`, `soundRows_enter` — what entering a transition keeps;
* `Dfa.wellFormed_declare` — a declaration that is not refused is well formed.
-/
import Mathlib.Data.Char
import Mathlib.Data.List.Sort
import Transduction.Proofs.Deterministic

namespace Transduction

/-- A computation that may fail succeeds when both of its parts do. -/
theorem bind_eq_ok_iff {ε α β : Type} {x : Except ε α} {f : α → Except ε β} {b : β} :
    x >>= f = .ok b ↔ ∃ a, x = .ok a ∧ f a = .ok b := by
  cases x with
  | error e => simp [bind, Except.bind]
  | ok a => simp [bind, Except.bind]

theorem lt_of_checkState {size q : Nat} {u : Unit} (h : checkState size q = .ok u) : q < size := by
  rw [checkState] at h
  by_contra hq
  rw [if_neg hq] at h
  cases h

/-- A check of all entries of a list passes where each entry does. -/
theorem of_forM_eq_ok {ε α : Type} {f : α → Except ε Unit} {xs : List α} {u : Unit}
    (h : xs.forM f = .ok u) : ∀ x ∈ xs, f x = .ok () := by
  induction xs with
  | nil => exact fun x hx => absurd hx List.not_mem_nil
  | cons a xs ih =>
    obtain ⟨_, ha, h⟩ := bind_eq_ok_iff.mp h
    exact List.forall_mem_cons.mpr ⟨ha, ih h⟩

namespace Machine

variable {L : Type} {m : Machine L} {checkLabel : L → Except ConstructionError Unit}
  {arrange : List (L × Nat) → List (L × Nat)} {size : Nat} {initial finals : List Nat}
  {arcs : List (Nat × L × Nat)}

/-- A declaration that is not refused names states only, and among them an initial one. -/
theorem wellFormed_declare (harrange : ∀ moves, arrange moves ⊆ moves)
    (h : declare checkLabel arrange size initial finals arcs = .ok m) : m.WellFormed := by
  -- The checks come one after the other, and each has been passed.
  obtain ⟨_, hinitial, h⟩ := bind_eq_ok_iff.mp h
  by_cases hempty : initial.isEmpty = true
  · rw [if_pos hempty] at h
    cases h
  · rw [if_neg hempty] at h
    obtain ⟨_, _, h⟩ := bind_eq_ok_iff.mp h
    obtain ⟨_, harcs, h⟩ := bind_eq_ok_iff.mp h
    cases h
    constructor
    · intro q l t hmove
      rw [moves_ofLists] at hmove
      split at hmove
      -- A move of the machine is one of those declared, whose target has been checked.
      · obtain ⟨⟨p, move⟩, harc, he⟩ := List.mem_filterMap.mp (harrange _ hmove)
        obtain ⟨_, _, hchecks⟩ := bind_eq_ok_iff.mp (of_forM_eq_ok harcs _ harc)
        obtain ⟨_, htarget, _⟩ := bind_eq_ok_iff.mp hchecks
        simp only at he
        split at he
        · cases he
          rw [size_ofLists]
          exact lt_of_checkState htarget
        · cases he
      · cases hmove
    -- Some state is declared initial, and it has been checked too.
    · obtain ⟨q, hq⟩ := List.exists_mem_of_ne_nil _ (mt List.isEmpty_iff.mpr hempty)
      have hlt : q < size := lt_of_checkState (of_forM_eq_ok hinitial q hq)
      exact ⟨q, by simp [hlt, hq]⟩

end Machine

namespace Row

variable {c : Char} {t : Nat} {row entries : List (Char × Nat)} {move : Char × Nat}

theorem of_mem_set (h : move ∈ set c t row) : move = (c, t) ∨ move ∈ row := by
  induction row with
  | nil => exact Or.inl (List.mem_singleton.mp h)
  | cons entry row ih =>
    obtain ⟨e, v⟩ := entry
    unfold set at h
    split at h
    · exact List.mem_cons.mp h
    · split at h
      · exact (List.mem_cons.mp h).imp_right (List.mem_cons_of_mem _)
      · rcases List.mem_cons.mp h with hentry | hrow
        · exact Or.inr (hentry ▸ List.mem_cons_self)
        · exact (ih hrow).imp_right (List.mem_cons_of_mem _)

theorem set_pairwise (h : row.Pairwise fun a b => a.1 < b.1) :
    (set c t row).Pairwise fun a b => a.1 < b.1 := by
  induction row with
  | nil => exact List.pairwise_singleton _ _
  | cons entry row ih =>
    obtain ⟨e, v⟩ := entry
    obtain ⟨hfirst, hrow⟩ := List.pairwise_cons.mp h
    unfold set
    by_cases hlt : c < e
    · rw [if_pos hlt]
      refine List.pairwise_cons.mpr ⟨fun b hb => ?_, h⟩
      rcases List.mem_cons.mp hb with rfl | hb
      · exact hlt
      · exact lt_trans hlt (hfirst b hb)
    · rw [if_neg hlt]
      by_cases heq : c = e
      · subst heq
        rw [if_pos rfl]
        exact List.pairwise_cons.mpr ⟨hfirst, hrow⟩
      · rw [if_neg heq]
        refine List.pairwise_cons.mpr ⟨fun b hb => ?_, ih hrow⟩
        rcases of_mem_set hb with rfl | hb
        · exact lt_of_le_of_ne (not_lt.mp hlt) (Ne.symm heq)
        · exact hfirst b hb

theorem mem_set_iff (h : ∀ entry ∈ row, entry.1 ≠ c) :
    move ∈ set c t row ↔ move = (c, t) ∨ move ∈ row := by
  refine ⟨of_mem_set, fun hmove => ?_⟩
  induction row with
  | nil => exact List.mem_singleton.mpr (hmove.resolve_right List.not_mem_nil)
  | cons entry row ih =>
    obtain ⟨e, u⟩ := entry
    have hne : c ≠ e := (h (e, u) List.mem_cons_self).symm
    rw [set, if_neg hne]
    split
    · exact List.mem_cons.mpr hmove
    · have hlater := ih fun entry hentry => h entry (List.mem_cons_of_mem _ hentry)
      rcases hmove with hmove | hmove
      · exact List.mem_cons_of_mem _ (hlater (Or.inl hmove))
      · rcases List.mem_cons.mp hmove with hmove | hmove
        · exact List.mem_cons.mpr (Or.inl hmove)
        · exact List.mem_cons_of_mem _ (hlater (Or.inr hmove))

/-- Entries for symbols of their own are all entered. -/
theorem mem_foldl_set_iff (hentries : entries.Pairwise fun a b => a.1 ≠ b.1)
    (hrow : ∀ entry ∈ entries, ∀ move ∈ row, move.1 ≠ entry.1) :
    move ∈ entries.foldl (fun row entry => set entry.1 entry.2 row) row ↔
      move ∈ entries ∨ move ∈ row := by
  induction entries generalizing row with
  | nil => simp
  | cons entry entries ih =>
    obtain ⟨hfirst, hentries⟩ := List.pairwise_cons.mp hentries
    have hset {move : Char × Nat} : move ∈ set entry.1 entry.2 row ↔ move = entry ∨ move ∈ row :=
      mem_set_iff (hrow entry List.mem_cons_self)
    rw [List.foldl_cons, ih hentries, hset, List.mem_cons]
    · tauto
    · intro later hlater move hmove
      rcases hset.mp hmove with rfl | hmove
      · exact hfirst later hlater
      · exact hrow later (List.mem_cons_of_mem _ hlater) move hmove

theorem foldl_set_pairwise (h : row.Pairwise fun a b => a.1 < b.1) :
    (entries.foldl (fun row entry => set entry.1 entry.2 row) row).Pairwise
      fun a b => a.1 < b.1 := by
  induction entries generalizing row with
  | nil => exact h
  | cons entry entries ih => exact ih (set_pairwise h)

/-- An ascending row is found again when its moves are entered in any order. -/
theorem foldl_set_of_perm (hrow : row.Pairwise fun a b => a.1 < b.1) (h : entries.Perm row) :
    entries.foldl (fun row entry => set entry.1 entry.2 row) [] = row := by
  have hentries : entries.Pairwise fun a b => a.1 ≠ b.1 :=
    h.symm.pairwise (hrow.imp ne_of_lt) Ne.symm
  have hmem (move : Char × Nat) :
      move ∈ entries.foldl (fun row entry => set entry.1 entry.2 row) [] ↔ move ∈ row := by
    rw [mem_foldl_set_iff hentries fun _ _ _ h => absurd h List.not_mem_nil, h.mem_iff]
    simp
  let _ : Std.Irrefl fun a b : Char × Nat => a.1 < b.1 := ⟨fun a => lt_irrefl a.1⟩
  let _ : Std.Asymm fun a b : Char × Nat => a.1 < b.1 := ⟨fun _ _ => lt_asymm⟩
  exact (foldl_set_pairwise List.Pairwise.nil).eq_of_mem_iff hrow hmem

end Row

namespace Dfa

variable {size p t : Nat} {c : Char} {rows rows' : Array (List (Char × Nat))}

/-- There are so many rows, each in ascending order and with targets among them. -/
structure SoundRows (size : Nat) (rows : Array (List (Char × Nat))) : Prop where
  size_eq : rows.size = size
  ascending : ∀ row ∈ rows, row.Pairwise fun a b => a.1 < b.1
  target_lt : ∀ row ∈ rows, ∀ move ∈ row, move.2 < size

/-- A transition that passes has a declared target, which is set in one row. -/
theorem of_enter (h : enter size rows (p, c, t) = .ok rows') :
    t < size ∧ rows' = rows.modify p (Row.set c t) := by
  obtain ⟨_, _, h⟩ := bind_eq_ok_iff.mp h
  obtain ⟨_, htarget, h⟩ := bind_eq_ok_iff.mp h
  refine ⟨lt_of_checkState htarget, ?_⟩
  cases hfirst : ((rows[p]?).getD []).lookup c with
  | none =>
    simp only [hfirst] at h
    cases h
    rfl
  | some first =>
    simp only [hfirst] at h
    split at h
    · cases h
    · cases h
      rfl

theorem soundRows_enter (hrows : SoundRows size rows)
    (h : enter size rows (p, c, t) = .ok rows') : SoundRows size rows' := by
  obtain ⟨ht, rfl⟩ := of_enter h
  -- A row is an old one, or an old one with one more move.
  have row_cases : ∀ row ∈ rows.modify p (Row.set c t),
      row ∈ rows ∨ ∃ old ∈ rows, row = Row.set c t old := by
    intro row hrow
    obtain ⟨q, hq⟩ := Array.getElem?_of_mem hrow
    rw [Array.getElem?_modify] at hq
    split at hq
    · obtain ⟨old, hold, rfl⟩ := Option.map_eq_some_iff.mp hq
      exact Or.inr ⟨old, Array.mem_of_getElem? hold, rfl⟩
    · exact Or.inl (Array.mem_of_getElem? hq)
  constructor
  · rw [Array.size_modify, hrows.size_eq]
  · intro row hrow
    rcases row_cases row hrow with hold | ⟨old, hold, rfl⟩
    · exact hrows.ascending row hold
    · exact Row.set_pairwise (hrows.ascending old hold)
  · intro row hrow move hmove
    rcases row_cases row hrow with hold | ⟨old, hold, rfl⟩
    · exact hrows.target_lt row hold move hmove
    · rcases Row.of_mem_set hmove with rfl | hmove
      · exact ht
      · exact hrows.target_lt old hold move hmove

theorem soundRows_replicate : SoundRows size (Array.replicate size []) := by
  refine ⟨Array.size_replicate, ?_, ?_⟩
  · intro row hrow
    rw [Array.eq_of_mem_replicate hrow]
    exact .nil
  · intro row hrow move hmove
    rw [Array.eq_of_mem_replicate hrow] at hmove
    cases hmove

theorem soundRows_foldlM_enter {arcs : List (Nat × Char × Nat)} (hrows : SoundRows size rows)
    (h : arcs.foldlM (enter size) rows = .ok rows') : SoundRows size rows' := by
  induction arcs generalizing rows with
  | nil =>
    cases h
    exact hrows
  | cons arc arcs ih =>
    rw [List.foldlM_cons] at h
    obtain ⟨next, hnext, h⟩ := bind_eq_ok_iff.mp h
    exact ih (soundRows_enter hrows hnext) h

theorem wellFormed_ofRows {start : Nat} {accepting : Array Bool} (hrows : SoundRows size rows)
    (hstart : start < size) (haccepting : accepting.size = size) :
    (ofRows rows start accepting).WellFormed := by
  -- What holds of the rows given holds of the row of any state, which is one of them or empty.
  have row_cases : ∀ q, (ofRows rows start accepting).row q = [] ∨
      (ofRows rows start accepting).row q ∈ rows := by
    intro q
    rw [row, ofRows]
    cases hq : rows[q]? with
    | none => exact Or.inl rfl
    | some row => exact Or.inr (Array.mem_of_getElem? hq)
  have size_eq : (ofRows rows start accepting).size = size := hrows.size_eq
  constructor
  · rw [size_eq]
    exact hstart
  · intro q c t hmem
    rw [size_eq]
    rcases row_cases q with hnil | hrow
    · rw [hnil] at hmem
      cases hmem
    · exact hrows.target_lt _ hrow _ hmem
  · rw [size_eq]
    exact haccepting
  · intro q
    rcases row_cases q with hnil | hrow
    · rw [hnil]
      exact .nil
    · exact hrows.ascending _ hrow
  · exact fun c => mem_alphabet_ofRows
  · exact alphabet_ofRows_pairwise

/-- A declaration that is not refused is well formed. -/
theorem wellFormed_declare {start : Nat} {finals : List Nat} {arcs : List (Nat × Char × Nat)}
    {d : Dfa} (h : declare size start finals arcs = .ok d) : d.WellFormed := by
  obtain ⟨_, hchecked, h⟩ := bind_eq_ok_iff.mp h
  obtain ⟨_, _, h⟩ := bind_eq_ok_iff.mp h
  obtain ⟨rows, hrows, h⟩ := bind_eq_ok_iff.mp h
  cases h
  exact wellFormed_ofRows (soundRows_foldlM_enter soundRows_replicate hrows)
    (lt_of_checkState hchecked) Array.size_ofFn

end Dfa

end Transduction
