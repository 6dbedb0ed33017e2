/-
Natural numbers in binary64.

A binary64 number has 53 leading bits and zeros behind them.  A natural number
with more bits is rounded in the last of the 53 places.

* `Binary64.round` — the nearest number with 53 leading bits; of two that are
  equally near, the one whose last place is even;
* `Binary64.limit` — where the numbers begin that have no finite neighbour;
* `round_near` — rounding moves a number by half a place at most, up or down.
-/
import Transduction.Order

namespace Transduction.Binary64

/-- The weight of the last of the 53 leading bits of a number. -/
def lastPlace (n : Nat) : Nat := 2 ^ (n.log2 - 52)

/-- The nearest multiple of the last place; of two that are equally near, the
even one. -/
def round (n : Nat) : Nat :=
  let unit := lastPlace n
  let below := n / unit
  let rest := n % unit
  if 2 * rest < unit ∨ 2 * rest = unit ∧ below % 2 = 0 then below * unit else (below + 1) * unit

/-- The least natural number that rounds to no finite number: halfway between
the largest finite number and the next power of two. -/
def limit : Nat := 2 ^ 1024 - 2 ^ 970

theorem lastPlace_pos (n : Nat) : 0 < lastPlace n := Nat.two_pow_pos _

theorem round_near (n : Nat) :
    2 * (round n - n) ≤ lastPlace n ∧ 2 * (n - round n) ≤ lastPlace n := by
  have whole := Nat.div_add_mod' n (lastPlace n)
  have rest := Nat.mod_lt n (lastPlace_pos n)
  have next := Nat.add_one_mul (n / lastPlace n) (lastPlace n)
  simp only [round]
  split <;> omega

end Transduction.Binary64
