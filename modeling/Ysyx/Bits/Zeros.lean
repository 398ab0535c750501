import Mathlib.Algebra.Group.Nat.Defs

-- Counting the zeros of a number at either end, where what is looked at is halved in each step.

namespace Zeros

variable {w x m r y h : Nat}

section Leading

-- Of the `w` bits of `x` the first `r` are zeros, and `y` is what is left of the `m` bits behind them.
structure Leading (w x m r y : Nat) : Prop where
  pos : y ≠ 0
  lt  : y < 2 ^ m
  log : Nat.log2 x + r + m = Nat.log2 y + w

namespace Leading

theorem start (h₀ : x ≠ 0) (hx : x < 2 ^ w) : Leading w x w 0 x where
  pos := h₀
  lt  := hx
  log := rfl

theorem skip (l : Leading w x (h + h) r y) (hy : y < 2 ^ h) : Leading w x h (r + h) y where
  pos := l.pos
  lt  := hy
  log := by
    have := l.log
    omega

theorem log2_div (hy : 2 ^ h ≤ y) : Nat.log2 (y / 2 ^ h) + h = Nat.log2 y := by
  have h₀ : y ≠ 0 := Nat.ne_of_gt <| Nat.lt_of_lt_of_le (Nat.two_pow_pos h) hy
  have hd : y / 2 ^ h ≠ 0 := Nat.ne_of_gt <| Nat.div_pos hy (Nat.two_pow_pos h)
  have hl := Nat.log2_self_le hd
  have hu := Nat.lt_log2_self (n := y / 2 ^ h)
  symm
  rw [Nat.log2_eq_iff h₀, Nat.add_right_comm, Nat.pow_add, Nat.pow_add _ (_ + 1)]
  exact ⟨(Nat.le_div_iff_mul_le (Nat.two_pow_pos h)).mp hl, (Nat.div_lt_iff_lt_mul (Nat.two_pow_pos h)).mp hu⟩

theorem keep (l : Leading w x (h + h) r y) (hy : 2 ^ h ≤ y) : Leading w x h r (y / 2 ^ h) where
  pos := Nat.ne_of_gt <| Nat.div_pos hy (Nat.two_pow_pos h)
  lt  := Nat.div_lt_of_lt_mul <| Nat.pow_add 2 h h ▸ l.lt
  log := by
    have := l.log
    have := log2_div hy
    omega

end Leading
end Leading

section Trailing

-- The last `r` bits of `x` are zeros, and the `m` bits before them are not all zeros.
structure Trailing (x m r y : Nat) : Prop where
  eq  : x = y * 2 ^ r
  pos : y % 2 ^ m ≠ 0

namespace Trailing

theorem start (h₀ : x ≠ 0) (hx : x < 2 ^ w) : Trailing x w 0 x where
  eq  := (Nat.mul_one x).symm
  pos := by rwa [Nat.mod_eq_of_lt hx]

theorem skip (t : Trailing x (h + h) r y) (hy : y % 2 ^ h = 0) : Trailing x h (r + h) (y / 2 ^ h) where
  eq := by
    rw [t.eq, Nat.add_comm, Nat.pow_add, ← Nat.mul_assoc, Nat.div_mul_cancel (Nat.dvd_of_mod_eq_zero hy)]
  pos := by
    have hp := t.pos
    rw [Nat.pow_add, Nat.mod_mul, hy, Nat.zero_add] at hp
    exact fun he => hp <| by rw [he, Nat.mul_zero]

theorem lt (t : Trailing x m r y) (hx : x < 2 ^ w) : r < w := by
  have hy : 1 ≤ y := Nat.pos_of_ne_zero fun he => t.pos <| by rw [he, Nat.zero_mod]
  have hr : 2 ^ r ≤ x := t.eq ▸ Nat.le_mul_of_pos_left _ hy
  exact (Nat.pow_lt_pow_iff_right (by decide)).mp (Nat.lt_of_le_of_lt hr hx)

theorem keep (t : Trailing x (h + h) r y) (hy : y % 2 ^ h ≠ 0) : Trailing x h r y where
  eq  := t.eq
  pos := hy

end Trailing
end Trailing

section Masks

-- Whether a number has a bit in the upper half.
theorem and_mask_eq_zero (hy : y < 2 ^ (h + h)) : y &&& (2 ^ h - 1) <<< h = 0 ↔ y < 2 ^ h := by
  have he : y &&& (2 ^ h - 1) <<< h = (y / 2 ^ h) <<< h := by
    apply Nat.eq_of_testBit_eq
    intro i
    rw [Nat.testBit_and, Nat.testBit_shiftLeft, Nat.testBit_shiftLeft, Nat.testBit_two_pow_sub_one,
      Nat.testBit_div_two_pow]
    by_cases hi : h ≤ i
    case pos =>
      by_cases hh : i - h < h
      case pos => simp [hi, hh]
      case neg =>
        have hb : y.testBit i = false :=
          Nat.testBit_lt_two_pow <| Nat.lt_of_lt_of_le hy <| Nat.pow_le_pow_right (by decide) (by omega)
        simp [hi, hh, hb]
    case neg => simp [hi]
  rw [he, Nat.shiftLeft_eq, Nat.mul_eq_zero, Nat.div_eq_zero_iff]
  have hp := Nat.two_pow_pos h
  omega

end Masks
end Zeros
