/-
Leftmost-longest rewriting of a text.

A scan goes through a text from left to right.  Where some non-empty prefix of the
rest is a match, it rewrites the longest one and goes on behind it; elsewhere it
copies one symbol:

* `longestMatch`, `scan` — the scan as a function;
* `LeftmostLongest` — the scan as a relation, one constructor a step;
* `leftmostLongest_iff` — the two agree;
* `LeftmostLongestBy` — the scans that may write any of the outputs of a match, and
  `exists_leftmostLongestBy`, `LeftmostLongestBy.unique`, which count them.
-/
import Mathlib.Data.List.Infix
import Mathlib.Tactic.ByContra
import Transduction.Machine.Simulation

namespace Transduction

variable {D D' : Word → Prop} {g : Word → Word} {R R' : Word → Word → Prop} {c : Char}
  {v v' w z z' : Word}

/-- No non-empty prefix of the text is a match. -/
def NoMatch (D : Word → Prop) (w : Word) : Prop := ∀ v, v ≠ [] → v <+: w → ¬D v

/-- The prefix is the longest non-empty match. -/
structure IsLongestMatch (D : Word → Prop) (w v : Word) : Prop where
  ne_nil : v ≠ []
  isMatch : D v
  isPrefix : v <+: w
  longest : ∀ v', v' <+: w → D v' → v'.length ≤ v.length

/-- Only the non-empty matches count. -/
theorem IsLongestMatch.congr (hD : ∀ v, v ≠ [] → (D v ↔ D' v)) (h : IsLongestMatch D w v) :
    IsLongestMatch D' w v := by
  obtain ⟨hne, hmatch, hprefix, hmax⟩ := h
  refine ⟨hne, (hD v hne).mp hmatch, hprefix, fun v' hv' hmatch' => ?_⟩
  by_cases hne' : v' = []
  · rw [hne']
    exact Nat.zero_le _
  · exact hmax v' hv' ((hD v' hne').mpr hmatch')

theorem IsLongestMatch.unique (h : IsLongestMatch D w v) (h' : IsLongestMatch D w v') : v = v' := by
  have hlength : v.length = v'.length :=
    Nat.le_antisymm (h'.longest v h.isPrefix h.isMatch) (h.longest v' h'.isPrefix h'.isMatch)
  exact (List.prefix_of_prefix_length_le h.isPrefix h'.isPrefix hlength.le).eq_of_length hlength

section longestMatch

variable (D) [DecidablePred D]

/-- The longest non-empty prefix of a text that is a match, if there is one. -/
def longestMatch (w : Word) : Option Word := w.inits.reverse.find? fun v => decide (v ≠ [] ∧ D v)

/-- The text after a scan from left to right that rewrites the longest match wherever
one starts and copies a symbol elsewhere. -/
def scan (g : Word → Word) : Word → Word
  | [] => []
  | c :: w =>
    match longestMatch D (c :: w) with
    | none => c :: scan g w
    | some v => g v ++ scan g (w.drop (v.length - 1))
termination_by w => w.length

end longestMatch

theorem inits_pairwise (w : Word) : w.inits.Pairwise fun a b => a.length < b.length := by
  induction w with
  | nil => simp
  | cons c w ih =>
    rw [List.inits_cons, List.pairwise_cons, List.pairwise_map]
    refine ⟨fun v hv => ?_, ih.imp fun h => by simpa using h⟩
    obtain ⟨u, _, rfl⟩ := List.mem_map.mp hv
    exact Nat.succ_pos _

/-- A scan as a relation, step by step. -/
inductive LeftmostLongest (D : Word → Prop) (g : Word → Word) : Word → Word → Prop where
  | done : LeftmostLongest D g [] []
  | copy {c : Char} {w z : Word} :
      NoMatch D (c :: w) → LeftmostLongest D g w z → LeftmostLongest D g (c :: w) (c :: z)
  | rewrite {v w z : Word} :
      IsLongestMatch D (v ++ w) v → LeftmostLongest D g w z →
      LeftmostLongest D g (v ++ w) (g v ++ z)

section decidable

variable [DecidablePred D]

theorem longestMatch_eq_none_iff : longestMatch D w = none ↔ NoMatch D w := by
  simp only [longestMatch, List.find?_eq_none, List.mem_reverse, List.mem_inits, decide_eq_true_eq,
    NoMatch]
  constructor
  · exact fun h v hne hv hD => h v hv ⟨hne, hD⟩
  · exact fun h v hv hD => h v hD.1 hv hD.2

theorem isLongestMatch_of_longestMatch (h : longestMatch D w = some v) : IsLongestMatch D w v := by
  obtain ⟨hv, before, after, hsplit, hbefore⟩ := List.find?_eq_some_iff_append.mp h
  have hmem : v ∈ w.inits.reverse := hsplit ▸ List.mem_append_right _ List.mem_cons_self
  have hshorter := List.pairwise_reverse.mpr (inits_pairwise w)
  rw [decide_eq_true_eq] at hv
  refine ⟨hv.1, hv.2, (List.mem_inits _ _).mp (List.mem_reverse.mp hmem), fun v' hv' hD => ?_⟩
  by_cases hne : v' = []
  · simp [hne]
  · have hmem' : v' ∈ w.inits.reverse := List.mem_reverse.mpr ((List.mem_inits _ _).mpr hv')
    rw [hsplit] at hmem' hshorter
    rcases List.mem_append.mp hmem' with hfront | hback
    · have := hbefore v' hfront
      simp [hne, hD] at this
    · rcases List.mem_cons.mp hback with rfl | hback
      · exact Nat.le_refl _
      · have := (List.pairwise_cons.mp (List.pairwise_append.mp hshorter).2.1).1 v' hback
        exact Nat.le_of_lt this

theorem longestMatch_eq_some_iff : longestMatch D w = some v ↔ IsLongestMatch D w v := by
  refine ⟨isLongestMatch_of_longestMatch, fun h => ?_⟩
  cases hfind : longestMatch D w with
  | none => exact absurd h.isMatch (longestMatch_eq_none_iff.mp hfind v h.ne_nil h.isPrefix)
  | some v' => rw [(isLongestMatch_of_longestMatch hfind).unique h]

theorem scan_of_noMatch (h : NoMatch D (c :: w)) : scan D g (c :: w) = c :: scan D g w := by
  rw [scan, longestMatch_eq_none_iff.mpr h]

theorem scan_of_isLongestMatch (h : IsLongestMatch D (v ++ w) v) :
    scan D g (v ++ w) = g v ++ scan D g w := by
  cases v with
  | nil => exact absurd rfl h.ne_nil
  | cons c v =>
    rw [List.cons_append] at h ⊢
    rw [scan, longestMatch_eq_some_iff.mpr h]
    simp

/-- The relation holds between a text and what the scan makes of it. -/
theorem leftmostLongest_iff : LeftmostLongest D g w z ↔ scan D g w = z := by
  constructor
  · intro h
    induction h with
    | done => rw [scan]
    | copy hnone _ ih => rw [scan_of_noMatch hnone, ih]
    | rewrite hlongest _ ih => rw [scan_of_isLongestMatch hlongest, ih]
  · rintro rfl
    -- A match may be of any length, so the induction is on the length of the text and not on its
    -- symbols.
    induction hn : w.length using Nat.strongRecOn generalizing w with
    | ind n ih =>
      cases w with
      | nil =>
        rw [scan]
        exact .done
      | cons c w =>
        cases hfind : longestMatch D (c :: w) with
        | none =>
          have hnone := longestMatch_eq_none_iff.mp hfind
          rw [scan_of_noMatch hnone]
          exact .copy hnone (ih w.length (by simp [← hn]) rfl)
        | some v =>
          have hlongest := longestMatch_eq_some_iff.mp hfind
          obtain ⟨rest, hrest⟩ := hlongest.isPrefix
          -- The rest is shorter because a match is not empty.
          have hpos : 0 < v.length := List.length_pos_iff.mpr hlongest.ne_nil
          have hlength := congrArg List.length hrest
          rw [← hrest] at hlongest ⊢
          rw [scan_of_isLongestMatch hlongest]
          rw [List.length_append] at hlength
          exact .rewrite hlongest (ih rest.length (by omega) rfl)

end decidable

/-! ### Scans with a choice of outputs -/

/-- A scan that rewrites each longest match to one of its outputs. -/
inductive LeftmostLongestBy (D : Word → Prop) (R : Word → Word → Prop) : Word → Word → Prop where
  | done : LeftmostLongestBy D R [] []
  | copy {c : Char} {w z : Word} :
      NoMatch D (c :: w) → LeftmostLongestBy D R w z → LeftmostLongestBy D R (c :: w) (c :: z)
  | rewrite {v y w z : Word} :
      IsLongestMatch D (v ++ w) v → R v y → LeftmostLongestBy D R w z →
      LeftmostLongestBy D R (v ++ w) (y ++ z)

namespace LeftmostLongestBy

/-- Only the non-empty matches and their outputs count. -/
theorem congr (hD : ∀ v, v ≠ [] → (D v ↔ D' v)) (hR : ∀ v y, v ≠ [] → R v y → R' v y)
    (h : LeftmostLongestBy D R w z) : LeftmostLongestBy D' R' w z := by
  induction h with
  | done => exact .done
  | copy hnone _ ih => exact .copy (fun v hne hv hv' => hnone v hne hv ((hD v hne).mpr hv')) ih
  | rewrite hlongest hy _ ih => exact .rewrite (hlongest.congr hD) (hR _ _ hlongest.ne_nil hy) ih

/-- A scan that writes outputs of the matches is one of those with a choice. -/
theorem of_leftmostLongest (h : LeftmostLongest D g w z) (hg : ∀ v, v ≠ [] → D v → R v (g v)) :
    LeftmostLongestBy D R w z := by
  induction h with
  | done => exact .done
  | copy hnone _ ih => exact .copy hnone ih
  | rewrite hlongest _ ih =>
    exact .rewrite hlongest (hg _ hlongest.ne_nil hlongest.isMatch) ih

/-- Where the parts of a text have one output each, there is nothing to choose. -/
theorem leftmostLongest (h : LeftmostLongestBy D R w z)
    (hg : ∀ v y, v ≠ [] → v <:+: w → R v y → y = g v) : LeftmostLongest D g w z := by
  induction h with
  | done => exact .done
  | @copy c w z hnone _ ih =>
    refine .copy hnone (ih fun v y hne hv hy => hg v y hne ?_ hy)
    exact hv.trans (List.suffix_cons c w).isInfix
  | @rewrite v y w z hlongest hy _ ih =>
    obtain rfl := hg v y hlongest.ne_nil (List.prefix_append v w).isInfix hy
    refine .rewrite hlongest (ih fun u y hne hu hy => hg u y hne ?_ hy)
    exact hu.trans (List.suffix_append v w).isInfix

end LeftmostLongestBy

open Classical in
/-- Where every match has an output, every text has a scan. -/
theorem exists_leftmostLongestBy (h : ∀ v, v ≠ [] → D v → ∃ y, R v y) (w : Word) :
    ∃ z, LeftmostLongestBy D R w z := by
  choose g hg using fun (v : Word) (hv : v ≠ [] ∧ D v) => h v hv.1 hv.2
  refine ⟨_, .of_leftmostLongest (g := fun v => if hv : v ≠ [] ∧ D v then g v hv else [])
    (leftmostLongest_iff.mpr rfl) fun v hne hv => ?_⟩
  rw [dif_pos ⟨hne, hv⟩]
  exact hg v ⟨hne, hv⟩

open Classical in
/-- Where no part of a text has two outputs, the text has at most one scan. -/
theorem LeftmostLongestBy.unique (h : LeftmostLongestBy D R w z) (h' : LeftmostLongestBy D R w z')
    (hone : ∀ v y y', v ≠ [] → v <:+: w → R v y → R v y' → y = y') : z = z' := by
  have chosen : ∀ v y, v ≠ [] → v <:+: w → R v y →
      y = if hv : ∃ y, R v y then hv.choose else [] := by
    intro v y hne hinfix hy
    have hv : ∃ y, R v y := ⟨y, hy⟩
    rw [dif_pos hv]
    exact hone v y _ hne hinfix hy hv.choose_spec
  exact (leftmostLongest_iff.mp (h.leftmostLongest chosen)).symm.trans
    (leftmostLongest_iff.mp (h'.leftmostLongest chosen))

end Transduction
