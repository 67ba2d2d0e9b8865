import Mathlib.Algebra.Group.Nat.Defs
import Mathlib.Data.Nat.Log

/-! The numbers of JavaScript, as far as they stand for natural numbers: 53 significant bits, and
ties go to the even neighbour. -/

namespace Lib.Number

def maxExact : ℕ := 2 ^ 53

def round (n : ℕ) : ℕ :=
  if n ≤ maxExact then n
  else
    let unit := 2 ^ (Nat.log2 n - 52)
    let low := n / unit * unit
    let rest := n % unit
    if 2 * rest < unit ∨ (2 * rest = unit ∧ n / unit % 2 = 0) then low else low + unit

theorem round_of_le {n : ℕ} (h : n ≤ maxExact) : round n = n := if_pos h

def add (m n : ℕ) : ℕ := round (m + n)

theorem add_of_le {m n : ℕ} (h : m + n ≤ maxExact) : add m n = m + n := round_of_le h

example : round (2 ^ 53 + 1) = 2 ^ 53 ∧ round (2 ^ 53 + 3) = 2 ^ 53 + 4 := by decide +kernel

end Lib.Number
