/-
The pairs of unions, concatenations, iterations and products.

What a run reads and what it writes are two words along the same labels, so a relation built from
relations follows from the runs of the constructions as a language does:

* `Repeated` — pairs of a relation in a row;
* `Transducer.relates_union_iff`, `Transducer.relates_concat_iff`, `Transducer.relates_plus_iff`,
  `Transducer.relates_star_iff`, and `Transducer.relates_algebra` — the operations on relations;
* `Acceptor.relates_product_iff`, with `Acceptor.relates_identity_iff` and
  `Transducer.accepts_domain_iff` — from languages to relations and back;
* `relates_languages` — the same with the words that acceptors recognize.

Runs are compared, not outputs: no word has to have finitely many of them.
-/
import Transduction.Proofs.Constructions
import Transduction.Proofs.Recognition

namespace Transduction

/-- So many pairs of a relation in a row: the first words joined, and the second words joined. -/
inductive Repeated (R : Word → Word → Prop) : Nat → Word → Word → Prop where
  | zero : Repeated R 0 [] []
  | succ {n : Nat} {x x' y y' : Word} :
      R x y → Repeated R n x' y' → Repeated R (n + 1) (x ++ x') (y ++ y')

namespace Transducer

variable {a b : Transducer} {n : Nat} {x y : Word} {ls : List (Option Char × Word)}

/-- A union relates what either operand relates. -/
theorem relates_union_iff (ha : a.Closed) :
    (a.union b).Relates x y ↔ a.Relates x y ∨ b.Relates x y := by
  simp only [relates_iff, union, Machine.acceptsLabels_union_iff ha]
  constructor
  · intro h
    obtain ⟨_, ⟨ls, rfl, hls | hls⟩, rfl, rfl⟩ := h
    · exact Or.inl ⟨ls, hls, rfl, rfl⟩
    · exact Or.inr ⟨ls, hls, rfl, rfl⟩
  · intro h
    obtain ⟨ls, hls, rfl, rfl⟩ | ⟨ls, hls, rfl, rfl⟩ := h
    · exact ⟨silent :: ls, ⟨ls, rfl, Or.inl hls⟩, rfl, rfl⟩
    · exact ⟨silent :: ls, ⟨ls, rfl, Or.inr hls⟩, rfl, rfl⟩

theorem readsOf_append_silent {more : List (Option Char × Word)} :
    readsOf (ls ++ silent :: more) = readsOf ls ++ readsOf more :=
  readsOf_append

theorem writesOf_append_silent {more : List (Option Char × Word)} :
    writesOf (ls ++ silent :: more) = writesOf ls ++ writesOf more :=
  writesOf_append

/-- A concatenation relates a pair of the first operand in front of one of the second. -/
theorem relates_concat_iff (ha : a.Closed) : (a.concat b).Relates x y ↔
    ∃ x₁ x₂ y₁ y₂, x = x₁ ++ x₂ ∧ y = y₁ ++ y₂ ∧ a.Relates x₁ y₁ ∧ b.Relates x₂ y₂ := by
  simp only [relates_iff, concat, Machine.acceptsLabels_concat_iff ha]
  constructor
  · intro h
    obtain ⟨_, ⟨front, back, rfl, hfront, hback⟩, rfl, rfl⟩ := h
    exact ⟨_, _, _, _, readsOf_append_silent, writesOf_append_silent, ⟨front, hfront, rfl, rfl⟩,
      back, hback, rfl, rfl⟩
  · intro h
    obtain ⟨_, _, _, _, rfl, rfl, ⟨front, hfront, rfl, rfl⟩, back, hback, rfl, rfl⟩ := h
    exact ⟨front ++ silent :: back, ⟨front, back, rfl, hfront, hback⟩, readsOf_append_silent,
      writesOf_append_silent⟩

/-- Accepted runs in a row give as many pairs in a row. -/
theorem exists_repeated_of_joined (h : Machine.Joined silent a.AcceptsLabels ls) :
    ∃ n, Repeated a.Relates (n + 1) (readsOf ls) (writesOf ls) := by
  induction h with
  | @one ls hls =>
    have hpair : a.Relates (readsOf ls) (writesOf ls) := relates_iff.mpr ⟨ls, hls, rfl, rfl⟩
    refine ⟨0, ?_⟩
    rw [← List.append_nil (readsOf ls), ← List.append_nil (writesOf ls)]
    exact .succ hpair .zero
  | @cons ls more hls _ ih =>
    obtain ⟨n, hmore⟩ := ih
    refine ⟨n + 1, ?_⟩
    rw [readsOf_append_silent, writesOf_append_silent]
    exact .succ (relates_iff.mpr ⟨ls, hls, rfl, rfl⟩) hmore

theorem exists_joined_of_repeated (h : Repeated a.Relates (n + 1) x y) :
    ∃ ls, Machine.Joined silent a.AcceptsLabels ls ∧ readsOf ls = x ∧ writesOf ls = y := by
  -- the last pair has no silent move behind it, so one pair is where the induction starts
  induction n generalizing x y with
  | zero =>
    obtain _ | ⟨hpair, hrest⟩ := h
    cases hrest
    obtain ⟨ls, hls, rfl, rfl⟩ := relates_iff.mp hpair
    exact ⟨ls, .one hls, (List.append_nil _).symm, (List.append_nil _).symm⟩
  | succ n ih =>
    obtain _ | ⟨hpair, hrest⟩ := h
    obtain ⟨ls, hls, rfl, rfl⟩ := relates_iff.mp hpair
    obtain ⟨more, hmore, rfl, rfl⟩ := ih hrest
    exact ⟨ls ++ silent :: more, .cons hls hmore, readsOf_append_silent, writesOf_append_silent⟩

/-- An iteration relates one or more pairs in a row. -/
theorem relates_plus_iff :
    a.plus.Relates x y ↔ ∃ n, 1 ≤ n ∧ Repeated a.Relates n x y := by
  rw [relates_iff]
  simp only [plus, Machine.acceptsLabels_plus_iff]
  constructor
  · intro h
    obtain ⟨ls, hls, rfl, rfl⟩ := h
    obtain ⟨n, hn⟩ := exists_repeated_of_joined hls
    exact ⟨n + 1, Nat.le_add_left 1 n, hn⟩
  · intro h
    obtain ⟨n, hn, h⟩ := h
    obtain ⟨n, rfl⟩ := Nat.exists_eq_add_of_le' hn
    exact exists_joined_of_repeated h

/-- An iteration that may be empty relates the empty words besides. -/
theorem relates_star_iff :
    a.star.Relates x y ↔ (x = [] ∧ y = []) ∨ a.plus.Relates x y := by
  rw [relates_iff, relates_iff]
  simp only [star, plus, Machine.acceptsLabels_star_iff, Machine.acceptsLabels_plus_iff]
  constructor
  · intro h
    obtain ⟨_, rfl | ⟨ls, rfl, hls⟩, rfl, rfl⟩ := h
    · exact Or.inl ⟨rfl, rfl⟩
    · exact Or.inr ⟨ls, hls, rfl, rfl⟩
  · intro h
    obtain ⟨rfl, rfl⟩ | ⟨ls, hls, rfl, rfl⟩ := h
    · exact ⟨[], Or.inl rfl, rfl, rfl⟩
    · exact ⟨silent :: ls, Or.inr ⟨ls, rfl, hls⟩, rfl, rfl⟩

/-- Union, concatenation and iteration of transducers are those of their relations. -/
theorem relates_algebra (a b : Transducer) (ha : a.WellFormed) (x y : Word) :
    ((a.union b).Relates x y ↔ a.Relates x y ∨ b.Relates x y) ∧
    ((a.concat b).Relates x y ↔
      ∃ x₁ x₂ y₁ y₂, x = x₁ ++ x₂ ∧ y = y₁ ++ y₂ ∧ a.Relates x₁ y₁ ∧ b.Relates x₂ y₂) ∧
    (a.plus.Relates x y ↔ ∃ n, 1 ≤ n ∧ Repeated a.Relates n x y) ∧
    (a.star.Relates x y ↔ (x = [] ∧ y = []) ∨ ∃ n, 1 ≤ n ∧ Repeated a.Relates n x y) := by
  refine ⟨relates_union_iff ha.closed, relates_concat_iff ha.closed, relates_plus_iff, ?_⟩
  rw [relates_star_iff, relates_plus_iff]

/-- Writes any number of `x` in front of each `a`.  From the accepting state a silent move leads
back to the initial one already. -/
def pumping : Transducer where
  nodes := #[{ initial := true, moves := [((none, ['x']), 0), ((some 'a', []), 1)] },
    { accepting := true, moves := [((none, []), 0)] }]

theorem relates_pumping (n : Nat) : pumping.Relates ['a'] (List.replicate n 'x') := by
  have pumped (n : Nat) : ∃ ls, Path pumping.moves 0 ls 0 ∧ readsOf ls = [] ∧
      writesOf ls = List.replicate n 'x' := by
    induction n with
    | zero => exact ⟨[], .nil 0, rfl, rfl⟩
    | succ n ih =>
      obtain ⟨ls, hpath, hreads, hwrites⟩ := ih
      exact ⟨(none, ['x']) :: ls, .cons List.mem_cons_self hpath, hreads,
        congrArg (['x'] ++ ·) hwrites⟩
  obtain ⟨ls, hpath, hreads, hwrites⟩ := pumped n
  have hread : ((some 'a', []), 1) ∈ pumping.moves 0 := List.mem_cons_of_mem _ List.mem_cons_self
  refine relates_iff.mpr ⟨ls ++ [(some 'a', [])], ⟨0, 1, rfl, hpath.append (.single hread), rfl⟩,
    ?_, ?_⟩
  · rw [readsOf_append, hreads]
    rfl
  · rw [writesOf_append, hwrites]
    exact List.append_nil _

/-- The iteration pumps in front of every `a`. -/
theorem relates_algebra_pumping : pumping.WellFormed ∧
    (pumping.union (ofWordPair ['b'] ['c'])).Relates ['a'] ['x', 'x', 'x'] ∧
    (pumping.concat pumping).Relates ['a', 'a'] ['x', 'x', 'x'] ∧
    pumping.plus.Relates ['a', 'a', 'a'] ['x', 'x', 'x'] ∧
    pumping.star.Relates [] [] := by
  have hm : pumping.WellFormed := by decide
  have hunion := (relates_algebra pumping (ofWordPair ['b'] ['c']) hm ['a'] ['x', 'x', 'x']).1
  have hconcat := (relates_algebra pumping pumping hm ['a', 'a'] ['x', 'x', 'x']).2.1
  have hiterated := fun x y => (relates_algebra pumping pumping hm x y).2.2
  refine ⟨hm, hunion.mpr (Or.inl (relates_pumping 3)), hconcat.mpr ?_, (hiterated _ _).1.mpr ?_,
    (hiterated _ _).2.mpr (Or.inl ⟨rfl, rfl⟩)⟩
  · exact ⟨['a'], ['a'], ['x'], ['x', 'x'], rfl, rfl, relates_pumping 1, relates_pumping 2⟩
  · exact ⟨3, by omega, .succ (relates_pumping 1) (.succ (relates_pumping 0)
      (.succ (relates_pumping 2) .zero))⟩

end Transducer

/-! ### Languages and relations -/

namespace Acceptor

variable {a b : Acceptor} {x y : Word}

/-- An acceptor that writes nothing relates its words to the empty word. -/
theorem relates_reading_iff :
    Transducer.Relates (a.mapLabels fun l => (l, [])) x y ↔ a.Accepts x ∧ y = [] := by
  have writes_nothing (ls : List (Option Char)) :
      writesOf (ls.map fun l => (l, [])) = [] := by
    simp [writesOf]
  rw [Transducer.relates_iff, accepts_iff]
  simp only [Machine.acceptsLabels_mapLabels_iff]
  constructor
  · intro h
    obtain ⟨_, ⟨ls, hls, rfl⟩, rfl, rfl⟩ := h
    exact ⟨⟨ls, hls, readsOf_map_reading.symm⟩, writes_nothing ls⟩
  · intro h
    obtain ⟨⟨ls, hls, rfl⟩, rfl⟩ := h
    exact ⟨_, ⟨ls, hls, rfl⟩, readsOf_map_reading, writes_nothing ls⟩

/-- An acceptor that writes what it read relates the empty word to its words. -/
theorem relates_writing_iff :
    Transducer.Relates (b.mapLabels fun l => (none, l.toList)) x y ↔ x = [] ∧ b.Accepts y := by
  have reads_nothing (ls : List (Option Char)) :
      readsOf (ls.map fun l => (none, l.toList)) = [] := by
    simp [readsOf]
  rw [Transducer.relates_iff, accepts_iff]
  simp only [Machine.acceptsLabels_mapLabels_iff]
  constructor
  · intro h
    obtain ⟨_, ⟨ls, hls, rfl⟩, rfl, rfl⟩ := h
    exact ⟨reads_nothing ls, ls, hls, writesOf_map_writing.symm⟩
  · intro h
    obtain ⟨rfl, ls, hls, rfl⟩ := h
    exact ⟨_, ⟨ls, hls, rfl⟩, reads_nothing ls, writesOf_map_writing⟩

/-- A product relates every word of the first acceptor to every word of the second. -/
theorem relates_product_iff (ha : a.Closed) :
    (a.product b).Relates x y ↔ a.Accepts x ∧ b.Accepts y := by
  show (Transducer.concat _ _).Relates x y ↔ _
  rw [Transducer.relates_concat_iff (Machine.closed_mapLabels ha)]
  simp only [relates_reading_iff, relates_writing_iff]
  constructor
  · intro h
    obtain ⟨_, _, _, _, rfl, rfl, ⟨hx, rfl⟩, rfl, hy⟩ := h
    rw [List.append_nil]
    exact ⟨hx, hy⟩
  · intro h
    obtain ⟨hx, hy⟩ := h
    exact ⟨x, [], [], y, (List.append_nil x).symm, rfl, ⟨hx, rfl⟩, rfl, hy⟩

end Acceptor

/-- The identity of an acceptor relates its words to themselves, the product of two acceptors all
words of the one to all words of the other, and the domain of a transducer recognizes the words
that it relates to something, however many outputs they have. -/
theorem relates_languages (a b : Acceptor) (f : Transducer) (ha : a.WellFormed)
    (hb : b.WellFormed) (hf : f.WellFormed) :
    (∀ x y, a.identity.Relates x y ↔ x = y ∧ a.recognizes x = true) ∧
    (∀ x y, (a.product b).Relates x y ↔ a.recognizes x = true ∧ b.recognizes y = true) ∧
    (∀ w, f.domain.recognizes w = true ↔ ∃ y, f.Relates w y) := by
  have hdomain : f.domain.Closed := Machine.closed_mapLabels hf.closed
  simp only [Acceptor.recognizes_iff ha.closed, Acceptor.recognizes_iff hb.closed,
    Acceptor.recognizes_iff hdomain]
  exact ⟨fun _ _ => Acceptor.relates_identity_iff,
    fun _ _ => Acceptor.relates_product_iff ha.closed, fun _ => Transducer.accepts_domain_iff⟩

/-- The outputs of `a` are unbounded, so that it cannot be processed; it is in the domain, and
`b` is not. -/
theorem relates_languages_pumping :
    Acceptor.ofEmptyWord.star.WellFormed ∧ Transducer.pumping.WellFormed ∧
    Acceptor.ofEmptyWord.star.identity.Relates [] [] ∧
    ((Acceptor.ofWord ['a']).product Acceptor.ofEmptyWord.star).Relates ['a'] [] ∧
    Transducer.pumping.process ['a'] = .error (.unboundedOutput 0) ∧
    (∃ y, Transducer.pumping.Relates ['a'] y) ∧ ¬∃ y, Transducer.pumping.Relates ['b'] y := by
  have hcycle : Acceptor.ofEmptyWord.star.WellFormed := by decide +kernel
  have hword : (Acceptor.ofWord ['a']).WellFormed := Acceptor.wellFormed_ofWord _
  have hm : Transducer.pumping.WellFormed := by decide
  obtain ⟨hidentity, _, hdomain⟩ := relates_languages _ _ _ hcycle hcycle hm
  have hproduct := (relates_languages _ _ _ hword hcycle hm).2.1
  refine ⟨hcycle, hm, (hidentity _ _).mpr ⟨rfl, by decide +kernel⟩,
    (hproduct _ _).mpr ⟨by decide +kernel, by decide +kernel⟩, by decide +kernel,
    (hdomain _).mp (by decide +kernel), ?_⟩
  rw [← hdomain]
  decide +kernel

end Transduction
