/-!
# Doubles

The whole numbers that a double holds, as far as it takes to say whether a product of two of them
still fits. A double has 53 significant bits and holds no number from 2 ^ 1024 on.

* `Double.nearest`: the nearest number of 53 significant bits. It differs from the number by half a
  unit in the last place at most, and numbers of no more than 53 bits stay as they are.
* `Double.isFinite`: whether a number rounds to a double at all.
-/

namespace Bindery.Json.Double

/-- The unit in the last of the 53 significant bits of a number. -/
def unit (n : Nat) : Nat := Nat.pow 2 (n.log2 - 52)

/-- The nearest number of 53 significant bits. A tie goes to the one whose last bit is zero. -/
def nearest (n : Nat) : Nat :=
  let places := n / unit n
  let left := n % unit n
  if 2 * left < unit n ∨ 2 * left = unit n ∧ places % 2 = 0 then places * unit n
  else (places + 1) * unit n

/-- The first number that is not finite as a double: half a unit in the last place above the
greatest double. -/
def bound : Nat := Nat.pow 2 1024 - Nat.pow 2 970

/-- Whether the double nearest to a number is finite. -/
def isFinite (n : Nat) : Bool := n < bound

/-! ## Laws -/

theorem unit_dvd_nearest (n : Nat) : unit n ∣ nearest n := by
  simp only [nearest]
  split <;> exact Nat.dvd_mul_left _ _

/-- Rounding moves a number by half a unit in the last place at most. -/
theorem nearest_near (n : Nat) :
    2 * nearest n ≤ 2 * n + unit n ∧ 2 * n ≤ 2 * nearest n + unit n := by
  have h := Nat.div_add_mod' n (unit n)
  have hu : 0 < unit n := Nat.pow_pos (by decide)
  have hl := Nat.mod_lt n hu
  simp only [nearest]
  split
  · omega
  · rw [Nat.add_mul, Nat.one_mul]
    omega

/-- Numbers of no more than 53 bits are doubles. -/
theorem nearest_eq_self {n : Nat} (h : n < Nat.pow 2 53) : nearest n = n := by
  have hu : unit n = 1 := by
    by_cases hn : n = 0
    · subst hn
      rfl
    · have : n.log2 < 53 := (Nat.log2_lt hn).2 h
      have : n.log2 - 52 = 0 := by omega
      rw [unit, this]
  simp [nearest, hu, Nat.mod_one]

end Bindery.Json.Double
