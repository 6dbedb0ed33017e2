/-
Explorations that correspond.

Two explorations may run over items of different kinds, the states of two automata, say.  Let a
relation tie their roots together, and with any two items also what their visits find, target
by target.  If related items have equal keys on one side exactly where they have on the other,
both explorations drop the same items as seen already, so they meet related items in the same
order and give them the same numbers:

* `KeysAgree`, `SeenAlike` — what is asked of keys, and what it means for the keys seen;
* `forall₂_unseen`, `forall₂_explore` — the new ones among related items are related, and so is
  what explorations find;
* `forall₂_of_lookup` — rows in ascending order whose lookups are related are related;
* `Dfa.ofExploration_eq` — automata explored from related roots are equal, state for state.
-/
import Mathlib.Data.Char
import Mathlib.Data.List.Forall2
import Transduction.Proofs.Deterministic

namespace Transduction

/-! ### Items and keys -/

section explorations

variable {κ κ' σ σ' ι ι' : Type} {R : κ → κ' → Prop} {S : σ → σ' → Prop} {key : κ → ι}
  {key' : κ' → ι'} {visit : κ → σ} {visit' : κ' → σ'} {targets : σ → List κ}
  {targets' : σ' → List κ'} {ks : List κ} {ks' : List κ'} {k : κ} {k' : κ'} {rounds : Nat}

/-- Related items have equal keys on one side exactly where they have on the other. -/
def KeysAgree (R : κ → κ' → Prop) (key : κ → ι) (key' : κ' → ι') : Prop :=
  ∀ a a' b b', R a a' → R b b' → (key a = key b ↔ key' a' = key' b')

theorem rel_getElem? {xs : List κ} {ys : List κ'} (h : List.Forall₂ R xs ys) (i : Nat) :
    Option.Rel R xs[i]? ys[i]? := by
  induction h generalizing i with
  | nil => exact .none
  | cons hxy _ ih =>
    cases i with
    | zero => exact .some hxy
    | succ i =>
      rw [List.getElem?_cons_succ, List.getElem?_cons_succ]
      exact ih i

variable [Ord ι] [Ord ι'] {seen : Std.TreeSet ι} {seen' : Std.TreeSet ι'}

/-- The keys of related items are seen on one side exactly where they are on the other. -/
def SeenAlike (R : κ → κ' → Prop) (key : κ → ι) (key' : κ' → ι') (seen : Std.TreeSet ι)
    (seen' : Std.TreeSet ι') : Prop :=
  ∀ a a', R a a' → (seen.contains (key a) = true ↔ seen'.contains (key' a') = true)

variable [Std.TransOrd ι] [Std.LawfulEqOrd ι] [Std.TransOrd ι'] [Std.LawfulEqOrd ι']

theorem SeenAlike.insert (h : SeenAlike R key key' seen seen') (hkeys : KeysAgree R key key')
    (hk : R k k') : SeenAlike R key key' (seen.insert (key k)) (seen'.insert (key' k')) := by
  intro a a' ha
  rw [Std.TreeSet.contains_insert, Std.TreeSet.contains_insert, Bool.or_eq_true, Bool.or_eq_true,
    beq_iff_eq, beq_iff_eq, Std.LawfulEqOrd.compare_eq_iff_eq, Std.LawfulEqOrd.compare_eq_iff_eq,
    hkeys k k' a a' hk ha, h a a' ha]

/-- The new ones among related items are related. -/
theorem forall₂_unseen (hkeys : KeysAgree R key key') (hks : List.Forall₂ R ks ks')
    (hseen : SeenAlike R key key' seen seen') :
    SeenAlike R key key' (unseen key seen ks).1 (unseen key' seen' ks').1 ∧
      List.Forall₂ R (unseen key seen ks).2 (unseen key' seen' ks').2 := by
  induction hks generalizing seen seen' with
  | nil => exact ⟨hseen, .nil⟩
  | @cons k k' ks ks' hk _ ih =>
    unfold unseen
    by_cases hc : seen.contains (key k) = true
    · rw [if_pos hc, if_pos ((hseen k k' hk).mp hc)]
      exact ih hseen
    · rw [if_neg hc, if_neg (mt (hseen k k' hk).mpr hc)]
      obtain ⟨hseen', hrest⟩ := ih (hseen.insert hkeys hk)
      exact ⟨hseen', .cons hk hrest⟩

/-- Explorations of related layers find related items, in the same order. -/
theorem forall₂_exploreLayers (hkeys : KeysAgree R key key')
    (hvisit : ∀ a a', R a a' → S (visit a) (visit' a'))
    (htargets : ∀ s s', S s s' → List.Forall₂ R (targets s) (targets' s'))
    (hlayer : List.Forall₂ R ks ks') (hseen : SeenAlike R key key' seen seen') :
    List.Forall₂ (fun e e' => R e.1 e'.1 ∧ S e.2 e'.2)
      (exploreLayers key visit targets rounds seen ks)
      (exploreLayers key' visit' targets' rounds seen' ks') := by
  -- The invariant is that the layers are related and the seen keys agree.
  induction rounds generalizing seen seen' ks ks' with
  | zero => exact .nil
  | succ rounds ih =>
    have hfound : List.Forall₂ (fun e e' => R e.1 e'.1 ∧ S e.2 e'.2)
        (ks.map fun k => (k, visit k)) (ks'.map fun k => (k, visit' k)) :=
      List.rel_map (fun a a' ha => ⟨ha, hvisit a a' ha⟩) hlayer
    have hbehind : List.Forall₂ R (layerTargets visit targets ks)
        (layerTargets visit' targets' ks') :=
      List.rel_flatMap hfound fun e e' he => htargets e.2 e'.2 he.2
    cases hlayer with
    | nil => exact .nil
    | cons =>
      rw [exploreLayers_cons, exploreLayers_cons]
      obtain ⟨hseen', hnext⟩ := forall₂_unseen hkeys hbehind hseen
      exact List.rel_append hfound (ih hnext hseen')

/-- Explorations from related roots find related items, in the same order. -/
theorem forall₂_explore (hkeys : KeysAgree R key key')
    (hvisit : ∀ a a', R a a' → S (visit a) (visit' a'))
    (htargets : ∀ s s', S s s' → List.Forall₂ R (targets s) (targets' s'))
    (hroots : List.Forall₂ R ks ks') :
    List.Forall₂ (fun e e' => R e.1 e'.1 ∧ S e.2 e'.2) (explore key visit targets rounds ks)
      (explore key' visit' targets' rounds ks') := by
  have hnone : SeenAlike R key key' ∅ ∅ := fun a a' _ => by simp
  obtain ⟨hseen, hlayer⟩ := forall₂_unseen hkeys hroots hnone
  exact forall₂_exploreLayers hkeys hvisit htargets hlayer hseen

end explorations

/-! ### Rows -/

section rows

variable {κ κ' : Type} {R : κ → κ' → Prop} {row : List (Char × κ)} {row' : List (Char × κ')}

/-- Moves on the same symbol to related targets. -/
def MovesAlike (R : κ → κ' → Prop) (move : Char × κ) (move' : Char × κ') : Prop :=
  move.1 = move'.1 ∧ R move.2 move'.2

/-- The lookups of related rows are related. -/
theorem rel_lookup (h : List.Forall₂ (MovesAlike R) row row') (c : Char) :
    Option.Rel R (row.lookup c) (row'.lookup c) := by
  induction h with
  | nil => exact .none
  | @cons move move' row row' hmove _ ih =>
    obtain ⟨e, t⟩ := move
    obtain ⟨e', t'⟩ := move'
    obtain ⟨rfl, ht⟩ : e = e' ∧ R t t' := hmove
    rw [List.lookup_cons, List.lookup_cons]
    cases c == e with
    | true => exact .some ht
    | false => exact ih

/-- No symbol in front of all symbols of a row has a move. -/
theorem lookup_eq_none_of_lt {c : Char} (h : ∀ move ∈ row, c < move.1) : row.lookup c = none := by
  cases hc : row.lookup c with
  | none => rfl
  | some t => exact absurd (h _ (mem_of_lookup hc)) (lt_irrefl c)

/-- No symbol with a move stands in front of the first one. -/
theorem first_le_of_lookup {c e : Char} {t u : κ}
    (hrow : ((c, t) :: row).Pairwise fun a b => a.1 < b.1)
    (h : ((c, t) :: row).lookup e = some u) : c ≤ e := by
  rcases List.mem_cons.mp (mem_of_lookup h) with hhead | hrest
  · exact le_of_eq (Prod.mk.inj hhead).1.symm
  · exact le_of_lt ((List.pairwise_cons.mp hrow).1 _ hrest)

/-- Rows in ascending order whose lookups are related begin with the same symbol. -/
theorem first_eq_of_lookup {c c' : Char} {t : κ} {t' : κ'}
    (hrow : ((c, t) :: row).Pairwise fun a b => a.1 < b.1)
    (hrow' : ((c', t') :: row').Pairwise fun a b => a.1 < b.1)
    (h : ∀ e, Option.Rel R (((c, t) :: row).lookup e) (((c', t') :: row').lookup e)) : c = c' := by
  -- the first symbol of either row has a move in the other one
  have hself : Option.Rel R (some t) (((c', t') :: row').lookup c) := by
    simpa only [List.lookup_cons_self] using h c
  have hself' : Option.Rel R (((c, t) :: row).lookup c') (some t') := by
    simpa only [List.lookup_cons_self] using h c'
  obtain ⟨_, hc, _⟩ := rel_some_left hself
  obtain ⟨_, hc', _⟩ := rel_some_right hself'
  exact le_antisymm (first_le_of_lookup hrow hc') (first_le_of_lookup hrow' hc)

/-- Rows in ascending order whose lookups are related are related move by move. -/
theorem forall₂_of_lookup (hrow : row.Pairwise fun a b => a.1 < b.1)
    (hrow' : row'.Pairwise fun a b => a.1 < b.1)
    (h : ∀ c, Option.Rel R (row.lookup c) (row'.lookup c)) :
    List.Forall₂ (MovesAlike R) row row' := by
  -- The rows are taken apart side by side.  The least symbol of one is the least of the other, so
  -- their heads are related, and lookups behind them are lookups in the rests.
  induction row generalizing row' with
  | nil =>
    cases row' with
    | nil => exact .nil
    | cons move' row' =>
      have hmove := h move'.1
      rw [List.lookup_cons_self] at hmove
      cases hmove
  | cons move row ih =>
    obtain ⟨c, t⟩ := move
    obtain ⟨hfirst, hrest⟩ := List.pairwise_cons.mp hrow
    cases row' with
    | nil =>
      have hmove := h c
      rw [List.lookup_cons_self] at hmove
      cases hmove
    | cons move' row' =>
      obtain ⟨c', t'⟩ := move'
      obtain ⟨hfirst', hrest'⟩ := List.pairwise_cons.mp hrow'
      obtain rfl : c = c' := first_eq_of_lookup hrow hrow' h
      have hhead := h c
      rw [List.lookup_cons_self, List.lookup_cons_self] at hhead
      cases hhead with
      | some ht =>
        refine .cons ⟨rfl, ht⟩ (ih hrest hrest' fun e => ?_)
        -- In the rests nothing moves on the head's symbol, since both rows ascend.
        by_cases he : e = c
        · subst he
          rw [lookup_eq_none_of_lt hfirst, lookup_eq_none_of_lt hfirst']
          exact .none
        · have hne : (e == c) = false := beq_false_of_ne he
          have hmove := h e
          rwa [List.lookup_cons, List.lookup_cons, hne] at hmove

end rows

namespace Dfa

variable {κ κ' ι ι' : Type} [Ord ι] [Ord ι'] [Std.TransOrd ι] [Std.LawfulEqOrd ι]
  [Std.TransOrd ι'] [Std.LawfulEqOrd ι'] {R : κ → κ' → Prop} {key : κ → ι} {key' : κ' → ι'}
  {visit : κ → List (Char × κ)} {visit' : κ' → List (Char × κ')} {bound : Nat} {root k : κ}
  {root' k' : κ'} {accepting : κ → Bool} {accepting' : κ' → Bool}

/-- Automata explored from related roots are equal, if related items accept alike and move
alike. -/
theorem ofExploration_eq (hkeys : KeysAgree R key key')
    (hmoves : ∀ a a', R a a' → List.Forall₂ (MovesAlike R) (visit a) (visit' a'))
    (haccepting : ∀ a a', R a a' → accepting a = accepting' a') (hroot : R root root') :
    ofExploration key accepting (foundFrom key visit bound root) =
      ofExploration key' accepting' (foundFrom key' visit' bound root') := by
  -- Both searches meet related items at the same places,
  have hfound : List.Forall₂ (fun e e' => R e.1 e'.1 ∧ List.Forall₂ (MovesAlike R) e.2 e'.2)
      (foundFrom key visit bound root) (foundFrom key' visit' bound root') :=
    forall₂_explore hkeys hmoves (fun _ _ hs => List.rel_map (fun _ _ hm => hm.2) hs)
      (.cons hroot .nil)
  -- so related items get one number,
  have hnumber : ∀ a a', R a a' → numberOf key (foundFrom key visit bound root) a =
      numberOf key' (foundFrom key' visit' bound root') a' := by
    intro a a' ha
    refine Option.ext fun i => ?_
    rw [← standsFor_iff_numberOf, ← standsFor_iff_numberOf]
    have hentries := rel_getElem? hfound i
    rw [StandsFor, StandsFor]
    generalize (foundFrom key visit bound root)[i]? = x,
      (foundFrom key' visit' bound root')[i]? = y at hentries
    cases hentries with
    | none => simp
    | some he => simpa using hkeys _ _ a a' he.1 ha
  -- and rows and marks, which know the items by their numbers only, are equal.
  have hrows : (foundFrom key visit bound root).map (fun entry => entry.2.filterMap fun move =>
        (numberOf key (foundFrom key visit bound root) move.2).map fun i => (move.1, i)) =
      (foundFrom key' visit' bound root').map (fun entry => entry.2.filterMap fun move =>
        (numberOf key' (foundFrom key' visit' bound root') move.2).map fun i => (move.1, i)) := by
    rw [← List.forall₂_eq_eq_eq]
    refine List.rel_map (fun e e' he => ?_) hfound
    rw [← List.forall₂_eq_eq_eq]
    refine List.rel_filterMap (fun move move' hmove => ?_) he.2
    rw [hmove.1, hnumber _ _ hmove.2]
    exact rel_refl (fun _ => rfl) _
  have hmarks : (foundFrom key visit bound root).map (fun entry => accepting entry.1) =
      (foundFrom key' visit' bound root').map (fun entry => accepting' entry.1) := by
    rw [← List.forall₂_eq_eq_eq]
    exact List.rel_map (fun e e' he => haccepting e.1 e'.1 he.1) hfound
  exact congrArg₂ (fun rows marks => ofRows rows.toArray 0 marks.toArray) hrows hmarks

end Dfa

end Transduction
