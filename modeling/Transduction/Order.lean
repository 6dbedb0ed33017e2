/-
Finite sets as ascending lists.

Transitions, outputs and alphabets are sets whose members are always listed in
ascending order, each once:

* `ascending xs` — the members of `xs` in that form;
* `mem_ascending` — no member is lost and none is invented;
* `ascending_pairwise` — each member is strictly below the next;
* `eq_of_pairwise_lt` — two lists of this form with the same members are equal.

Pairs are compared by their first component, then by their second.  Words are
lists of characters, so they are compared by code point, the first difference
deciding.
-/
import Std.Data.TreeSet.Lemmas

namespace Transduction

variable {α β : Type}

/-- Powers of numbers are those of the core library, in modules that know of algebra as
well. -/
@[default_instance 20000]
instance (priority := high) instPowNumber : Pow Nat Nat := instPowNat

/-- Pairs are ordered by their first component, then by their second. -/
instance instOrdPair [Ord α] [Ord β] : Ord (α × β) := lexOrd

instance instTransOrdPair [Ord α] [Ord β] [Std.TransOrd α] [Std.TransOrd β] :
    Std.TransOrd (α × β) := Std.instTransOrdProd

instance instLawfulEqOrdPair [Ord α] [Ord β] [Std.LawfulEqOrd α] [Std.LawfulEqOrd β] :
    Std.LawfulEqOrd (α × β) := Std.instLawfulEqOrdProd

/-- The members of a list in ascending order, each once. -/
def ascending [Ord α] (xs : List α) : List α :=
  (Std.TreeSet.ofList xs compare).toList

/-- Equality, decided by a lawful comparison. -/
abbrev decEqOfCompare [Ord α] [Std.LawfulEqOrd α] : DecidableEq α := fun a b =>
  if h : compare a b = .eq then isTrue (Std.LawfulEqOrd.eq_of_compare h)
  else isFalse fun e => h (e ▸ Std.ReflOrd.compare_self)

theorem mem_ascending [Ord α] [Std.TransOrd α] [Std.LawfulEqOrd α] {xs : List α} {x : α} :
    x ∈ ascending xs ↔ x ∈ xs := by
  let _ : DecidableEq α := decEqOfCompare
  have : Std.LawfulBEqOrd α := ⟨by simp⟩
  -- membership in the tree is membership in the list it is built from
  rw [ascending, Std.TreeSet.mem_toList, ← Std.TreeSet.contains_iff_mem,
    Std.TreeSet.contains_ofList]
  exact List.contains_iff_mem

theorem ascending_pairwise [Ord α] [Std.TransOrd α] (xs : List α) :
    (ascending xs).Pairwise (fun a b => compare a b = .lt) :=
  Std.TreeSet.ordered_toList

theorem compare_pair_eq_lt_iff [Ord α] [Ord β] [Std.LawfulEqOrd α] {a b : α × β} :
    compare a b = .lt ↔ compare a.1 b.1 = .lt ∨ (a.1 = b.1 ∧ compare a.2 b.2 = .lt) := by
  show (compare a.1 b.1).then (compare a.2 b.2) = .lt ↔ _
  cases h : compare a.1 b.1 with
  | lt => simp
  | eq => simp [Std.LawfulEqOrd.eq_of_compare h]
  | gt =>
    have hne : a.1 ≠ b.1 := fun he => by
      rw [he, Std.ReflOrd.compare_self] at h
      cases h
    simp [hne]

theorem nodup_of_pairwise_lt [Ord α] [Std.ReflOrd α] {xs : List α}
    (h : xs.Pairwise fun a b => compare a b = .lt) : xs.Nodup :=
  h.imp fun h he => by
    rw [he, Std.ReflOrd.compare_self] at h
    cases h

/-- Two lists in ascending order with the same members are equal. -/
theorem eq_of_pairwise_lt [Ord α] [Std.TransOrd α] [Std.LawfulEqOrd α] {xs ys : List α}
    (hxs : xs.Pairwise fun a b => compare a b = .lt)
    (hys : ys.Pairwise fun a b => compare a b = .lt) (h : ∀ x, x ∈ xs ↔ x ∈ ys) : xs = ys := by
  have hperm : xs.Perm ys := (List.perm_ext_iff_of_nodup (nodup_of_pairwise_lt hxs)
    (nodup_of_pairwise_lt hys)).mpr h
  refine hperm.eq_of_pairwise (fun a b _ _ hab hba => ?_) hxs hys
  rw [Std.OrientedOrd.eq_swap (a := a), hba] at hab
  cases hab

/-- A list in ascending order stays as it is. -/
theorem ascending_eq_self [Ord α] [Std.TransOrd α] [Std.LawfulEqOrd α] {xs : List α}
    (h : xs.Pairwise fun a b => compare a b = .lt) : ascending xs = xs :=
  eq_of_pairwise_lt (ascending_pairwise xs) h fun _ => mem_ascending

end Transduction
