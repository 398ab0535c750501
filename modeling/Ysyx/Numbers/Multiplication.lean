import Mathlib.Data.BitVec
import Mathlib.Tactic.Ring

-- Multiplication in which one bit of the multiplier is used after the other.

namespace Multiplication

section Semiring

variable {R : Type} [CommSemiring R] {acc x : R} {n : Nat}

-- A round adds the multiplicand if the multiplier is odd, doubles the one and halves the other.
theorem round_eq : (if n % 2 = 0 then acc else acc + x) + (x + x) * (n / 2 : Nat) = acc + x * n := by
  have hn : (n : R) = 2 * (n / 2 : Nat) + (n % 2 : Nat) := by
    rw [← Nat.cast_ofNat, ← Nat.cast_mul, ← Nat.cast_add, Nat.div_add_mod]
  obtain h | h := Nat.mod_two_eq_zero_or_one n
  case inl =>
    rw [h] at hn
    rw [if_pos h, hn]
    push_cast
    ring
  case inr =>
    rw [h] at hn
    rw [if_neg (by omega), hn]
    push_cast
    ring

end Semiring

section Words

variable {v w : Nat} {acc x : BitVec w} {y : BitVec v}

theorem and_one_eq_zero : y &&& 1 = 0 ↔ y.toNat % 2 = 0 := by
  rw [← BitVec.toNat_inj]
  obtain rfl | hv := v.eq_zero_or_pos
  case inl => simp [BitVec.eq_nil y]
  case inr => simp [Nat.mod_eq_of_lt (Nat.one_lt_two_pow hv.ne'), Nat.and_one_is_mod]

theorem shiftLeft_one {x : BitVec w} : x <<< 1 = x + x := by
  apply BitVec.eq_of_toNat_eq
  rw [BitVec.toNat_shiftLeft, BitVec.toNat_add, Nat.shiftLeft_eq, Nat.pow_one, Nat.mul_two]

-- The round on words, where the multiplier may have a width of its own.
theorem round_words : (if y &&& 1 = 0 then acc else acc + x) + x <<< 1 * ((y >>> 1).toNat : BitVec w) =
    acc + x * (y.toNat : BitVec w) := by
  rw [shiftLeft_one, BitVec.toNat_ushiftRight, Nat.shiftRight_eq_div_pow, if_congr and_one_eq_zero rfl rfl]
  exact round_eq

end Words
end Multiplication
