/-
Finite binary relations.

A relation is the list of its pairs.  `Relation.compose` links pairs through a
common middle value, and `Relation.transitiveClosure` adds all pairs that a
chain of pairs of the relation links:

* each round composes only the pairs found in the round before with the
  relation, so no pair is extended twice;
* a shortest chain between two values uses no pair twice, so as many rounds as
  the relation has pairs find every pair of the closure.
-/
import Transduction.Order

namespace Transduction.Relation

variable {α : Type} [DecidableEq α] [Ord α]

/-- The pairs `(a, c)` such that some `b` has `(a, b)` in the first relation and
`(b, c)` in the second, in ascending order. -/
def compose (r s : List (α × α)) : List (α × α) :=
  ascending (r.flatMap fun (a, b) =>
    s.filterMap fun (b', c) => if b = b' then some (a, c) else none)

/-- Extends the closure found so far by chains through its newest pairs, for at
most `rounds` rounds. -/
def extendClosure (r : List (α × α)) : Nat → List (α × α) → List (α × α) → List (α × α)
  | 0, closure, _ => closure
  | _ + 1, closure, [] => closure
  | rounds + 1, closure, newest =>
    -- a chain is extended at its end, by one pair of the relation
    let fresh := (compose newest r).filter fun pair => !closure.contains pair
    extendClosure r rounds (closure ++ fresh) fresh

/-- The smallest transitive relation that contains `r`, in ascending order. -/
def transitiveClosure (r : List (α × α)) : List (α × α) :=
  ascending (extendClosure r r.length r r)

end Transduction.Relation
