/-
Deterministic automata, word by word.

`follow δ k w` is where the word `w` leads from `k` under a partial transition
function `δ`, if it can be read to its end.  States of an automaton, sets of
states, classes of suffixes and choices all move by such a function, and a
construction is right when its states move as the items they stand for:

* `follow_rel` — related starts stay related along every word;
* `Dfa.trace_eq_true_iff`, `Dfa.length_trace_le_iff` — acceptance and the length of
  the path, by `follow`;
* `Dfa.delta_ofExploration`, `Dfa.follow_ofExploration` — the states of an explored
  automaton move as the items of the exploration, of which those with the same key
  are one state.
-/
import Transduction.Dfa.Basic
import Transduction.Proofs.Explored

namespace Transduction

variable {κ κ' ι : Type}

/-- Symbols in ascending order. -/
theorem ascending_symbols_pairwise (cs : List Char) : (ascending cs).Pairwise (· < ·) :=
  (ascending_pairwise cs).imp fun h => compareOfLessAndEq_eq_lt.mp h

/-- Where a word leads under a partial transition function, if all of it can be
read. -/
def follow (δ : κ → Char → Option κ) : κ → Word → Option κ
  | k, [] => some k
  | k, c :: w => (δ k c).bind fun t => follow δ t w

section follow

variable {δ : κ → Char → Option κ} {δ' : κ' → Char → Option κ'} {k t : κ} {w x : Word} {c : Char}

@[simp] theorem follow_nil : follow δ k [] = some k := rfl

theorem follow_cons : follow δ k (c :: w) = (δ k c).bind fun t => follow δ t w := rfl

theorem follow_cons_eq_some : follow δ k (c :: w) = some t ↔
    ∃ s, δ k c = some s ∧ follow δ s w = some t := by
  rw [follow_cons, Option.bind_eq_some_iff]

theorem follow_append : follow δ k (w ++ x) = (follow δ k w).bind fun t => follow δ t x := by
  induction w generalizing k with
  | nil => rfl
  | cons c w ih =>
    rw [List.cons_append, follow_cons, follow_cons, Option.bind_assoc]
    exact Option.bind_congr fun t _ => ih

theorem follow_concat : follow δ k (w ++ [c]) = (follow δ k w).bind fun t => δ t c := by
  rw [follow_append]
  exact Option.bind_congr fun t _ => by simp [follow_cons]

/-- Related starts stay related along every word. -/
theorem follow_rel {R : κ → κ' → Prop} {k' : κ'}
    (step : ∀ k k' c, R k k' → Option.Rel R (δ k c) (δ' k' c)) (hR : R k k') :
    Option.Rel R (follow δ k w) (follow δ' k' w) := by
  induction w generalizing k k' with
  | nil => exact .some hR
  | cons c w ih =>
    rw [follow_cons, follow_cons]
    have h := step k k' c hR
    generalize δ k c = a, δ' k' c = b at h
    cases h with
    | none => exact .none
    | some h => exact ih h

/-- What a step keeps holds wherever a word leads. -/
theorem follow_keeps {P : κ → Prop} (step : ∀ k c t, P k → δ k c = some t → P t) (hk : P k)
    (h : follow δ k w = some t) : P t := by
  induction w generalizing k with
  | nil => exact Option.some.inj h ▸ hk
  | cons c w ih =>
    obtain ⟨s, hs, h⟩ := follow_cons_eq_some.mp h
    exact ih (step k c s hk hs) h

/-- What holds of every symbol with a move holds of all symbols of a word that can be read. -/
theorem forall_mem_of_follow {P : Char → Prop} (step : ∀ k c t, δ k c = some t → P c)
    (h : follow δ k w = some t) : ∀ c ∈ w, P c := by
  induction w generalizing k with
  | nil => exact fun c hc => absurd hc List.not_mem_nil
  | cons c w ih =>
    obtain ⟨s, hs, h⟩ := follow_cons_eq_some.mp h
    exact List.forall_mem_cons.mpr ⟨step k c s hs, ih h⟩

end follow

theorem rel_some_left {R : κ → κ' → Prop} {a : κ} {b : Option κ'} (h : Option.Rel R (some a) b) :
    ∃ b', b = some b' ∧ R a b' := by
  cases h with
  | some h => exact ⟨_, rfl, h⟩

theorem rel_some_right {R : κ → κ' → Prop} {a : Option κ} {b : κ'} (h : Option.Rel R a (some b)) :
    ∃ a', a = some a' ∧ R a' b := by
  cases h with
  | some h => exact ⟨_, rfl, h⟩

theorem rel_none_right {R : κ → κ' → Prop} {a : Option κ} (h : Option.Rel R a none) : a = none := by
  cases h
  rfl

theorem rel_exists_iff {R : κ → κ' → Prop} {a : Option κ} {b : Option κ'} (h : Option.Rel R a b) :
    (∃ x, a = some x) ↔ ∃ y, b = some y := by
  cases h with
  | none => simp
  | some h => exact iff_of_true ⟨_, rfl⟩ ⟨_, rfl⟩

theorem rel_imp {R S : κ → κ' → Prop} {a : Option κ} {b : Option κ'} (h : Option.Rel R a b)
    (himp : ∀ x y, R x y → S x y) : Option.Rel S a b := by
  cases h with
  | none => exact .none
  | some h => exact .some (himp _ _ h)

theorem rel_refl {R : κ → κ → Prop} (hR : ∀ k, R k k) (a : Option κ) : Option.Rel R a a := by
  cases a with
  | none => exact .none
  | some k => exact .some (hR k)

theorem mem_of_lookup {α β : Type} [BEq α] [LawfulBEq α] {xs : List (α × β)} {a : α} {b : β}
    (h : xs.lookup a = some b) : (a, b) ∈ xs := by
  obtain ⟨front, back, rfl, _⟩ := List.lookup_eq_some_iff.mp h
  simp

/-! ### Moves listed by symbol -/

section symbols

variable {symbols : List Char} {g : Char → Option (Char × κ)} {f : Char → Option κ} {c : Char}
  {t : κ}

/-- Moves that are listed symbol by symbol are looked up by symbol. -/
theorem lookup_filterMap_symbols (h : ∀ c, g c = (f c).map fun t => (c, t)) :
    (symbols.filterMap g).lookup c = if c ∈ symbols then f c else none := by
  induction symbols with
  | nil => rfl
  | cons e symbols ih =>
    rw [List.filterMap_cons, h e]
    cases he : f e with
    | none =>
      by_cases hc : c = e
      · subst hc
        simp [ih, he]
      · simp [ih, hc]
    | some u =>
      by_cases hc : c = e
      · subst hc
        simp [he]
      · have : (c == e) = false := by simpa using hc
        simp [ih, hc, List.lookup_cons, this]

theorem mem_filterMap_symbols (h : ∀ c, g c = (f c).map fun t => (c, t)) :
    (c, t) ∈ symbols.filterMap g ↔ c ∈ symbols ∧ f c = some t := by
  simp only [List.mem_filterMap, h, Option.map_eq_some_iff, Prod.mk.injEq]
  constructor
  · rintro ⟨c, hc, t, ht, rfl, rfl⟩
    exact ⟨hc, ht⟩
  · exact fun ⟨hc, ht⟩ => ⟨c, hc, t, ht, rfl, rfl⟩

theorem pairwise_filterMap_symbols (h : ∀ c, g c = (f c).map fun t => (c, t))
    (hsymbols : symbols.Pairwise (· < ·)) :
    (symbols.filterMap g).Pairwise fun a b => a.1 < b.1 := by
  refine hsymbols.filterMap _ fun c e hce a ha b hb => ?_
  rw [h] at ha hb
  obtain ⟨_, _, rfl⟩ := Option.map_eq_some_iff.mp ha
  obtain ⟨_, _, rfl⟩ := Option.map_eq_some_iff.mp hb
  exact hce

end symbols

namespace Dfa

variable {d : Dfa} {q r : Nat} {w x : Word} {c : Char}

/-! ### Traces -/

theorem trace_cons_none (h : d.delta q c = none) : d.trace q (c :: w) = (false, [q]) := by
  rw [trace, h]

theorem trace_cons_some {t : Nat} (h : d.delta q c = some t) :
    d.trace q (c :: w) = ((d.trace t w).1, q :: (d.trace t w).2) := by
  rw [trace, h]

/-- A trace accepts when the whole word is read and leads to an accepting state. -/
theorem trace_eq_true_iff :
    (d.trace q w).1 = true ↔ ∃ r, follow d.delta q w = some r ∧ d.isAccepting r = true := by
  induction w generalizing q with
  | nil => simp [trace]
  | cons c w ih =>
    rw [follow_cons]
    cases h : d.delta q c with
    | none => simp [trace_cons_none h]
    | some t => rw [trace_cons_some h, Option.bind_some]; exact ih

theorem recognizes_iff :
    d.recognizes w = true ↔ ∃ r, follow d.delta d.start w = some r ∧ d.isAccepting r = true :=
  trace_eq_true_iff

/-- The path of a trace has more than so many states when so many symbols can be read. -/
theorem lt_length_trace_iff {n : Nat} (hn : n ≤ w.length) :
    n < (d.trace q w).2.length ↔ ∃ r, follow d.delta q (w.take n) = some r := by
  induction w generalizing q n with
  | nil =>
    obtain rfl := Nat.le_zero.mp hn
    simp [trace]
  | cons c w ih =>
    cases n with
    | zero => cases h : d.delta q c <;> simp [trace, h]
    | succ n =>
      rw [List.take_succ_cons, follow_cons]
      cases h : d.delta q c with
      | none => simp [trace_cons_none h]
      | some t =>
        rw [trace_cons_some h, Option.bind_some, ← ih (Nat.le_of_succ_le_succ hn)]
        simp

/-- The path of a trace is as long as the word only if the word cannot be read. -/
theorem length_trace_le_iff :
    (d.trace q w).2.length ≤ w.length ↔ follow d.delta q w = none := by
  rw [← Nat.not_lt, lt_length_trace_iff (Nat.le_refl _), List.take_length, not_exists,
    Option.eq_none_iff_forall_ne_some]

/-- Reading one more symbol adds one state to the path. -/
theorem trace_concat {t : Nat} (hw : follow d.delta q w = some r) (hc : d.delta r c = some t) :
    (d.trace q (w ++ [c])).2 = (d.trace q w).2 ++ [t] := by
  induction w generalizing q with
  | nil =>
    obtain rfl := Option.some.inj hw
    simp [trace, hc]
  | cons d' w ih =>
    obtain ⟨s, hs, hw⟩ := follow_cons_eq_some.mp hw
    rw [List.cons_append, trace_cons_some hs, trace_cons_some hs, ih hw, List.cons_append]

/-! ### Explored automata -/

section explored

/-- The items found from one root, each with its moves. -/
abbrev foundFrom [Ord ι] (key : κ → ι) (visit : κ → List (Char × κ)) (bound : Nat) (root : κ) :
    List (κ × List (Char × κ)) :=
  explore key visit (fun moves => moves.map (·.2)) bound [root]

/-- State `i` stands for the items with the key of the `i`-th item found. -/
def StandsFor (key : κ → ι) (found : List (κ × List (Char × κ))) (i : Nat) (k : κ) : Prop :=
  ∃ entry, found[i]? = some entry ∧ key entry.1 = key k

variable [Ord ι] {key : κ → ι} {accepting : κ → Bool} {visit : κ → List (Char × κ)} {bound : Nat}
  {root k : κ} {i j : Nat} {found : List (κ × List (Char × κ))} {entry : κ × List (Char × κ)}

theorem lookup_filterMap {f : κ → Option Nat} {moves : List (Char × κ)}
    (h : ∀ c t, (c, t) ∈ moves → (f t).isSome) :
    (moves.filterMap fun (c, t) => (f t).map fun i => (c, i)).lookup c =
      (moves.lookup c).bind f := by
  induction moves with
  | nil => rfl
  | cons move moves ih =>
    obtain ⟨d, t⟩ := move
    obtain ⟨i, hi⟩ := Option.isSome_iff_exists.mp (h d t List.mem_cons_self)
    have rest := ih fun c t hmem => h c t (List.mem_cons_of_mem _ hmem)
    rw [List.filterMap_cons_some (b := (d, i)) (by simp [hi]), List.lookup_cons, List.lookup_cons]
    split
    · simp [hi]
    · exact rest

/-- The number that the key of an item has among those found. -/
def numberOf (key : κ → ι) (found : List (κ × List (Char × κ))) (k : κ) : Option Nat :=
  (numbering (found.map fun entry => key entry.1))[key k]?

theorem row_ofExploration (h : found[i]? = some entry) :
    (ofExploration key accepting found).row i =
      entry.2.filterMap fun (c, t) => (numberOf key found t).map fun i => (c, i) := by
  simp [row, ofExploration, ofRows, numberOf, h]

theorem delta_eq_bind (h : found[i]? = some entry)
    (hall : ∀ c t, (c, t) ∈ entry.2 → (numberOf key found t).isSome) :
    (ofExploration key accepting found).delta i c =
      (entry.2.lookup c).bind (numberOf key found) := by
  rw [delta, row_ofExploration h]
  exact lookup_filterMap hall

theorem isAccepting_ofExploration (h : found[i]? = some entry) :
    (ofExploration key accepting found).isAccepting i = accepting entry.1 := by
  simp [isAccepting, ofExploration, ofRows, Marks.contains, h]

theorem size_ofExploration : (ofExploration key accepting found).size = found.length := by
  simp [size, ofExploration, ofRows]

/-- The root is the first item found. -/
theorem getElem?_zero_foundFrom (hbound : 0 < bound) :
    (foundFrom key visit bound root)[0]? = some (root, visit root) := by
  obtain ⟨n, rfl⟩ := Nat.exists_eq_add_of_le' hbound
  simp [foundFrom, explore, unseen, exploreLayers]

theorem standsFor_root (hbound : 0 < bound) :
    StandsFor key (foundFrom key visit bound root) 0 root :=
  ⟨_, getElem?_zero_foundFrom hbound, rfl⟩

/-- Some word leads to each item found. -/
theorem exists_follow_of_mem_foundFrom [Std.TransOrd ι] {δ : κ → Char → Option κ}
    (hδ : ∀ k c t, (c, t) ∈ visit k → δ k c = some t)
    (h : entry ∈ foundFrom key visit bound root) : ∃ w, follow δ root w = some entry.1 := by
  refine forall_mem_explore h (P := fun k => ∃ w, follow δ root w = some k) (fun k hk => ?_)
    fun k hk t ht => ?_
  · obtain rfl := List.mem_singleton.mp hk
    exact ⟨[], rfl⟩
  · obtain ⟨w, hw⟩ := hk
    obtain ⟨⟨c, t⟩, hmove, rfl⟩ := List.mem_map.mp ht
    exact ⟨w ++ [c], by rw [follow_concat, hw, Option.bind_some, hδ k c t hmove]⟩

variable [Std.TransOrd ι] [Std.LawfulEqOrd ι]

theorem standsFor_iff_numberOf : StandsFor key (foundFrom key visit bound root) i k ↔
    numberOf key (foundFrom key visit bound root) k = some i := by
  rw [numberOf, getElem?_numbering nodup_explore]
  simp [StandsFor, List.getElem?_map, Option.map_eq_some_iff]

/-- A key has one state. -/
theorem StandsFor.unique (hi : StandsFor key (foundFrom key visit bound root) i k)
    (hj : StandsFor key (foundFrom key visit bound root) j k) : i = j :=
  Option.some.inj ((standsFor_iff_numberOf.mp hi).symm.trans (standsFor_iff_numberOf.mp hj))

variable {P : κ → Prop} {keys : List ι}

/-- Where items with the same key move alike, a state moves as the items that it
stands for. -/
theorem delta_ofExploration (accepting : κ → Bool) (hroot : P root)
    (hP : ∀ k, P k → ∀ c t, (c, t) ∈ visit k → P t) (hkeys : ∀ k, P k → key k ∈ keys)
    (hbound : keys.length ≤ bound)
    (hsame : ∀ a b, P a → P b → key a = key b → ∀ c,
      Option.Rel (fun x y => key x = key y) ((visit a).lookup c) ((visit b).lookup c))
    (hk : P k) (h : StandsFor key (foundFrom key visit bound root) i k) :
    Option.Rel (StandsFor key (foundFrom key visit bound root))
      ((ofExploration key accepting (foundFrom key visit bound root)).delta i c)
      ((visit k).lookup c) := by
  obtain ⟨entry, hentry, hkey⟩ := h
  have hmem := List.mem_of_getElem? hentry
  have hroots : ∀ k ∈ [root], P k := fun k hk => List.mem_singleton.mp hk ▸ hroot
  have htargets : ∀ k, P k → ∀ t ∈ (visit k).map (·.2), P t := fun k hk t ht => by
    obtain ⟨⟨c, _⟩, hc, rfl⟩ := List.mem_map.mp ht
    exact hP k hk c _ hc
  -- every target of what is found has a number
  have numbered : ∀ c t, (c, t) ∈ entry.2 →
      ∃ j, StandsFor key (foundFrom key visit bound root) j t := by
    intro c t ht
    obtain ⟨entry', hentry', hkey'⟩ := exists_mem_explore_of_target hmem hroots htargets hkeys
      hbound (List.mem_map.mpr ⟨(c, t), ht, rfl⟩)
    obtain ⟨j, hj⟩ := List.getElem?_of_mem hentry'
    exact ⟨j, entry', hj, hkey'⟩
  have hlookup := hsame entry.1 k (forall_mem_explore hmem hroots htargets) hk hkey c
  rw [← snd_of_mem_explore hmem] at hlookup
  rw [delta_eq_bind hentry fun c t ht => by
    obtain ⟨j, hj⟩ := numbered c t ht
    rw [standsFor_iff_numberOf.mp hj]
    rfl]
  generalize ha : entry.2.lookup c = a, (visit k).lookup c = b at hlookup ⊢
  cases hlookup with
  | none => exact .none
  | @some s t hst =>
    obtain ⟨j, hj⟩ := numbered c s (mem_of_lookup ha)
    rw [Option.bind_some, standsFor_iff_numberOf.mp hj]
    obtain ⟨e, he, hes⟩ := hj
    exact .some ⟨e, he, hes.trans hst⟩

/-- Where distinct items have distinct keys, a state moves as the item that it stands
for. -/
theorem delta_ofExploration_of_injective (accepting : κ → Bool)
    (hkey : Function.Injective key) (hroot : P root)
    (hP : ∀ k, P k → ∀ c t, (c, t) ∈ visit k → P t) (hkeys : ∀ k, P k → key k ∈ keys)
    (hbound : keys.length ≤ bound) (hk : P k)
    (h : StandsFor key (foundFrom key visit bound root) i k) :
    Option.Rel (StandsFor key (foundFrom key visit bound root))
      ((ofExploration key accepting (foundFrom key visit bound root)).delta i c)
      ((visit k).lookup c) := by
  refine delta_ofExploration accepting hroot hP hkeys hbound (fun a b _ _ hab c => ?_) hk h
  rw [hkey hab]
  exact rel_refl (R := fun x y => key x = key y) (fun _ => rfl) _

/-- Words lead to states of the items that they lead to. -/
theorem follow_ofExploration (hkey : Function.Injective key) (hroot : P root)
    (hP : ∀ k, P k → ∀ c t, (c, t) ∈ visit k → P t) (hkeys : ∀ k, P k → key k ∈ keys)
    (hbound : keys.length ≤ bound) {δ : κ → Char → Option κ}
    (hδ : ∀ k c, (visit k).lookup c = δ k c) (w : Word) :
    Option.Rel (StandsFor key (foundFrom key visit bound root))
      (follow (ofExploration key accepting (foundFrom key visit bound root)).delta 0 w)
      (follow δ root w) := by
  have hpos : 0 < bound := Nat.lt_of_lt_of_le (List.length_pos_of_mem (hkeys root hroot)) hbound
  refine rel_imp (follow_rel (R := fun i k =>
    P k ∧ StandsFor key (foundFrom key visit bound root) i k) ?_ ⟨hroot, standsFor_root hpos⟩)
    fun i k h => h.2
  intro i k c ⟨hk, hi⟩
  have h := delta_ofExploration_of_injective accepting hkey hroot hP hkeys hbound hk hi
    (c := c)
  rw [hδ] at h
  generalize hx : Dfa.delta _ i c = x, hy : δ k c = y at h ⊢
  cases h with
  | none => exact .none
  | some h => exact .some ⟨hP k hk c _ (mem_of_lookup ((hδ k c).trans hy)), h⟩

end explored

/-! ### Explored automata are well formed -/

theorem mem_alphabet_ofRows {rows : Array (List (Char × Nat))} {start : Nat}
    {accepting : Array Bool} :
    c ∈ (ofRows rows start accepting).alphabet ↔
      ∃ q t, (c, t) ∈ (ofRows rows start accepting).row q := by
  simp only [ofRows, mem_ascending, List.mem_flatMap, List.mem_map, row]
  constructor
  · rintro ⟨row, hrow, ⟨d, t⟩, hmem, rfl⟩
    obtain ⟨q, hq⟩ := List.getElem?_of_mem hrow
    rw [Array.getElem?_toList] at hq
    exact ⟨q, t, by simpa [hq] using hmem⟩
  · rintro ⟨q, t, hmem⟩
    cases hq : rows[q]? with
    | none => simp [hq] at hmem
    | some row =>
      exact ⟨row, Array.mem_toList_iff.mpr (Array.mem_of_getElem? hq), (c, t),
        by simpa [hq] using hmem, rfl⟩

theorem alphabet_ofRows_pairwise {rows : Array (List (Char × Nat))} {start : Nat}
    {accepting : Array Bool} : (ofRows rows start accepting).alphabet.Pairwise (· < ·) :=
  ascending_symbols_pairwise _

theorem wellFormed_ofExploration [Ord ι] [Std.TransOrd ι] [Std.LawfulEqOrd ι] {key : κ → ι}
    {accepting : κ → Bool} {visit : κ → List (Char × κ)} {bound : Nat} {root : κ}
    (hbound : 0 < bound) (hvisit : ∀ k, (visit k).Pairwise fun a b => a.1 < b.1) :
    (ofExploration key accepting (foundFrom key visit bound root)).WellFormed where
  start_lt := by
    rw [size_ofExploration]
    exact (List.getElem?_eq_some_iff.mp (getElem?_zero_foundFrom hbound)).1
  target_lt q c t h := by
    cases hq : (foundFrom key visit bound root)[q]? with
    | none => simp [row, ofExploration, ofRows, hq] at h
    | some entry =>
      rw [row_ofExploration hq] at h
      obtain ⟨⟨d, k⟩, _, hk⟩ := List.mem_filterMap.mp h
      obtain ⟨j, hj, he⟩ := Option.map_eq_some_iff.mp hk
      cases he
      -- A target is the number of an item that has been found.
      obtain ⟨entry', hentry', _⟩ := standsFor_iff_numberOf.mpr hj
      rw [size_ofExploration]
      exact (List.getElem?_eq_some_iff.mp hentry').1
  accepting_size := by simp [ofExploration, ofRows, Marks.size, size]
  row_ascending q := by
    cases hq : (foundFrom key visit bound root)[q]? with
    | none => simp [row, ofExploration, ofRows, hq]
    | some entry =>
      rw [row_ofExploration hq, snd_of_mem_explore (List.mem_of_getElem? hq)]
      -- Targets without a number drop out, which leaves the order as it is.
      refine (hvisit entry.1).filterMap _ fun a b hab a' ha' b' hb' => ?_
      obtain ⟨_, _, rfl⟩ := Option.map_eq_some_iff.mp ha'
      obtain ⟨_, _, rfl⟩ := Option.map_eq_some_iff.mp hb'
      exact hab
  mem_alphabet c := mem_alphabet_ofRows
  alphabet_ascending := alphabet_ofRows_pairwise

theorem WellFormed.delta_lt (hd : d.WellFormed) {t : Nat} (h : d.delta q c = some t) : t < d.size :=
  hd.target_lt q c t (mem_of_lookup h)

theorem WellFormed.lt_size_of_isAccepting (hd : d.WellFormed) (h : d.isAccepting q = true) :
    q < d.size := by
  rw [← hd.accepting_size]
  by_contra hq
  simp [isAccepting, Marks.contains, Array.getElem?_eq_none (Nat.le_of_not_lt hq)] at h

theorem WellFormed.mem_alphabet_of_delta (hd : d.WellFormed) {t : Nat} (h : d.delta q c = some t) :
    c ∈ d.alphabet :=
  (hd.mem_alphabet c).mpr ⟨q, t, mem_of_lookup h⟩

/-- A symbol that the alphabet misses has no moves. -/
theorem WellFormed.delta_eq_none (hd : d.WellFormed) (hc : c ∉ d.alphabet) (r : Nat) :
    d.delta r c = none := by
  cases hr : d.delta r c with
  | none => rfl
  | some u => exact absurd (hd.mem_alphabet_of_delta hr) hc

theorem lt_size_of_delta {t : Nat} (h : d.delta q c = some t) : q < d.size := by
  by_contra hq
  simp [delta, row, Array.getElem?_eq_none (Nat.le_of_not_lt hq)] at h

end Dfa

end Transduction
