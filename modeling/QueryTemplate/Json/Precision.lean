import QueryTemplate.Text.Basic

/-! # Numbers of limited precision

Of a decimal number, so many leading digits are kept as fit in 64 bits; those behind them only
count as places. A floating-point number has 53 binary digits and a power of two: any other number
is rounded to the nearest one of this form, and of two equally near ones to the even one.
-/

namespace QueryTemplate

namespace Precision

/-- The leading decimal digits of `n` that fit in 64 bits, and the number of digits behind them. -/
def leading (n : Nat) : Nat × Nat :=
  if n < UInt64.size then (n, 0)
  else
    let (head, places) := leading (n / 10)
    (head, places + 1)
decreasing_by
  have hsize : 10 ≤ UInt64.size := by decide
  omega

/-- The value of the last of 53 binary digits, if `n` is written with so many. -/
def lastPlace (n : Nat) : Nat := 1 <<< (n.log2 - 52)

/-- The number of 53 binary digits, up to a power of two, that is nearest to `n`. -/
def nearest (n : Nat) : Nat :=
  let below := n / lastPlace n
  let rest := n % lastPlace n
  if 2 * rest < lastPlace n ∨ (2 * rest = lastPlace n ∧ below % 2 = 0) then below * lastPlace n
  else (below + 1) * lastPlace n

/-- Rounding moves a number by half of its last place at most. -/
theorem nearest_near (n : Nat) :
    2 * nearest n ≤ 2 * n + lastPlace n ∧ 2 * n ≤ 2 * nearest n + lastPlace n := by
  have hn := Nat.div_add_mod n (lastPlace n)
  have hpos : 0 < lastPlace n := by
    rw [lastPlace, Nat.one_shiftLeft]
    exact Nat.two_pow_pos _
  have hr := Nat.mod_lt n hpos
  unfold nearest
  dsimp only
  split
  · rw [Nat.mul_comm (n / lastPlace n)]
    omega
  · rw [Nat.add_mul, Nat.mul_comm (n / lastPlace n)]
    omega

/-- A number of at most 53 binary digits stays as it is. -/
theorem nearest_of_lt {n : Nat} (h : n < 1 <<< 53) : nearest n = n := by
  have hp : lastPlace n = 1 := by
    have : n.log2 ≤ 52 := by
      by_cases hn : n = 0
      · simp [hn]
      · exact Nat.le_of_lt_succ ((Nat.log2_lt hn).2 (Nat.one_shiftLeft 53 ▸ h))
    simp [lastPlace, Nat.sub_eq_zero_of_le this]
  simp [nearest, hp, Nat.mod_one]

end Precision

end QueryTemplate
