import Mathlib.Algebra.Order.Ring.Nat
import Mathlib.Tactic.Ring

-- Division in which one bit of the quotient is found after the other.

namespace Division

variable {n d k q r : Nat}

section Restoring

-- The divisor comes down from `d * 2 ^ k`: `q` has only bits from bit `k` on, and what is left is less than
-- the last multiple of the divisor.
structure Restoring (n d k q r : Nat) : Prop where
  sum  : q * d + r = n
  rest : r < d * 2 ^ k
  dvd  : 2 ^ k ∣ q

namespace Restoring

theorem start (h : n < d * 2 ^ k) : Restoring n d k 0 n where
  sum  := by rw [Nat.zero_mul, Nat.zero_add]
  rest := h
  dvd  := Nat.dvd_zero _

theorem keep (h : Restoring n d (k + 1) q r) (hr : r < d * 2 ^ k) : Restoring n d k q r where
  sum  := h.sum
  rest := hr
  dvd  := (Nat.pow_dvd_pow 2 k.le_succ).trans h.dvd

-- The new bit is not in the quotient yet.
theorem or_eq_add (h : 2 ^ (k + 1) ∣ q) : q ||| 2 ^ k = q + 2 ^ k := by
  obtain ⟨c, rfl⟩ := h
  rw [← Nat.two_pow_add_eq_or_of_lt (Nat.pow_lt_pow_right (by decide) k.lt_succ_self)]

theorem subtract (h : Restoring n d (k + 1) q r) (hr : d * 2 ^ k ≤ r) :
    Restoring n d k (q ||| 2 ^ k) (r - d * 2 ^ k) where
  sum := by
    have hs := h.sum
    rw [or_eq_add h.dvd, Nat.add_mul, Nat.mul_comm (2 ^ k)]
    omega
  rest := by
    have hr := h.rest
    rw [Nat.pow_succ, ← Nat.mul_assoc] at hr
    omega
  dvd := by
    rw [or_eq_add h.dvd]
    exact Nat.dvd_add ((Nat.pow_dvd_pow 2 k.le_succ).trans h.dvd) (Nat.dvd_refl _)

theorem done (h : Restoring n d 0 q r) : q = n / d ∧ r = n % d := by
  have hr : r < d := by simpa using h.rest
  have hd : 0 < d := Nat.zero_lt_of_lt hr
  rw [← h.sum, Nat.mul_comm, Nat.mul_add_div hd, Nat.mul_add_mod, Nat.div_eq_of_lt hr, Nat.mod_eq_of_lt hr]
  exact ⟨rfl, rfl⟩

end Restoring
end Restoring

section Leading

-- The bits of `n` are taken in from the top: the low `k` bits are still to come.
structure Leading (n d k q r : Nat) : Prop where
  quot : q = n / 2 ^ k / d
  rest : r = n / 2 ^ k % d

namespace Leading

theorem start (h : n / 2 ^ k < d) : Leading n d k 0 (n / 2 ^ k) where
  quot := (Nat.div_eq_of_lt h).symm
  rest := (Nat.mod_eq_of_lt h).symm

theorem of_sum (hs : q * d + r = n / 2 ^ k) (hr : r < d) : Leading n d k q r where
  quot := by rw [← hs, Nat.mul_comm, Nat.mul_add_div (Nat.zero_lt_of_lt hr), Nat.div_eq_of_lt hr, Nat.add_zero]
  rest := by rw [← hs, Nat.mul_comm, Nat.mul_add_mod, Nat.mod_eq_of_lt hr]

theorem sum (h : Leading n d k q r) : q * d + r = n / 2 ^ k := by
  rw [h.quot, h.rest, Nat.mul_comm, Nat.div_add_mod]

theorem lt (h : Leading n d k q r) (hd : 0 < d) : r < d :=
  h.rest ▸ Nat.mod_lt _ hd

theorem div_pow_eq (n k : Nat) : n / 2 ^ k = 2 * (n / 2 ^ (k + 1)) + n / 2 ^ k % 2 := by
  rw [Nat.pow_succ, ← Nat.div_div_eq_div_mul]
  omega

-- A round takes in bit `k` and finds out whether the divisor goes into the rest.
theorem keep (h : Leading n d (k + 1) q r) (hr : 2 * r + n / 2 ^ k % 2 < d) :
    Leading n d k (2 * q) (2 * r + n / 2 ^ k % 2) := by
  refine of_sum ?_ hr
  have hs := h.sum
  have hn := div_pow_eq n k
  rw [Nat.mul_assoc]
  omega

theorem subtract (h : Leading n d (k + 1) q r) (hd : 0 < d) (hr : d ≤ 2 * r + n / 2 ^ k % 2) :
    Leading n d k (2 * q + 1) (2 * r + n / 2 ^ k % 2 - d) := by
  have hl := h.lt hd
  refine of_sum ?_ (by omega)
  calc (2 * q + 1) * d + (2 * r + n / 2 ^ k % 2 - d)
    _ = 2 * (q * d) + (d + (2 * r + n / 2 ^ k % 2 - d)) := by ring
    _ = 2 * (q * d + r) + n / 2 ^ k % 2 := by omega
    _ = n / 2 ^ k := by rw [h.sum, ← div_pow_eq n k]

theorem done (h : Leading n d 0 q r) : q = n / d ∧ r = n % d := by
  have hq := h.quot
  have hr := h.rest
  rw [Nat.pow_zero, Nat.div_one] at hq hr
  exact ⟨hq, hr⟩

end Leading
end Leading
end Division
