import Mathlib.Algebra.Group.Nat.Defs

-- Words that are stored as two halves.

namespace Halves

variable {w : Nat}

def low (x : BitVec (w + w)) : BitVec w :=
  x.setWidth w

def high (x : BitVec (w + w)) : BitVec w :=
  (x >>> w).setWidth w

section Append

variable {h h' l l' : BitVec w} {x : BitVec (w + w)} {n : Nat}

theorem toNat_append : (h ++ l).toNat = h.toNat * 2 ^ w + l.toNat := by
  rw [BitVec.toNat_append, ← Nat.shiftLeft_add_eq_or_of_lt l.isLt, Nat.shiftLeft_eq]

theorem toNat_low : (low x).toNat = x.toNat % 2 ^ w :=
  BitVec.toNat_setWidth ..

theorem toNat_high : (high x).toNat = x.toNat / 2 ^ w := by
  have hx : x.toNat / 2 ^ w < 2 ^ w := Nat.div_lt_of_lt_mul <| Nat.pow_add 2 w w ▸ x.isLt
  rw [high, BitVec.toNat_setWidth, BitVec.toNat_ushiftRight, Nat.shiftRight_eq_div_pow, Nat.mod_eq_of_lt hx]

@[simp] theorem high_append_low : high x ++ low x = x := by
  apply BitVec.eq_of_toNat_eq
  rw [toNat_append, toNat_low, toNat_high, Nat.div_add_mod']

@[simp] theorem low_append : low (h ++ l) = l := by
  apply BitVec.eq_of_toNat_eq
  rw [toNat_low, toNat_append, Nat.mul_add_mod', Nat.mod_eq_of_lt l.isLt]

@[simp] theorem high_append : high (h ++ l) = h := by
  apply BitVec.eq_of_toNat_eq
  rw [toNat_high, toNat_append, Nat.mul_comm, Nat.mul_add_div (Nat.two_pow_pos w), Nat.div_eq_of_lt l.isLt,
    Nat.add_zero]

theorem toNat_carry : (if l + l' < l then 1 else 0 : BitVec w).toNat = (l.toNat + l'.toNat) / 2 ^ w := by
  have hl := l.isLt
  have hl' := l'.isLt
  have hc : l + l' < l ↔ 2 ^ w ≤ l.toNat + l'.toNat := by
    rw [BitVec.lt_def, BitVec.toNat_add]
    by_cases h : l.toNat + l'.toNat < 2 ^ w
    case pos => rw [Nat.mod_eq_of_lt h]; omega
    case neg => rw [Nat.mod_eq_sub_mod (by omega), Nat.mod_eq_of_lt (by omega)]; omega
  by_cases h : 2 ^ w ≤ l.toNat + l'.toNat
  case pos =>
    have hw : w ≠ 0 := by
      rintro rfl
      omega
    rw [if_pos (hc.mpr h), Nat.div_eq_of_lt_le (k := 1) (by omega) (by omega)]
    simp [Nat.pos_of_ne_zero hw]
  case neg =>
    rw [if_neg (mt hc.mp h), Nat.div_eq_of_lt (by omega)]
    rfl

-- The high halves are added with the carry of the low ones.
theorem append_add : (h ++ l) + (h' ++ l') = (h + h' + if l + l' < l then 1 else 0) ++ (l + l') := by
  apply BitVec.eq_of_toNat_eq
  rw [BitVec.toNat_add, toNat_append, toNat_append, toNat_append, BitVec.toNat_add, BitVec.toNat_add, BitVec.toNat_add,
    toNat_carry, Nat.mod_add_mod, Nat.pow_add, Nat.mod_mul]
  have hs : h.toNat * 2 ^ w + l.toNat + (h'.toNat * 2 ^ w + l'.toNat) =
      2 ^ w * (h.toNat + h'.toNat) + (l.toNat + l'.toNat) := by
    rw [Nat.mul_add, Nat.mul_comm (2 ^ w), Nat.mul_comm (2 ^ w)]
    omega
  rw [hs, Nat.mul_add_mod, Nat.mul_add_div (Nat.two_pow_pos w), Nat.mul_comm (2 ^ w) (_ % _), Nat.add_comm]

theorem append_add_high : (h ++ l) + (h' ++ (0 : BitVec w)) = (h + h') ++ l := by
  simp [append_add]

-- A product that goes into the high half is taken of all of the word.
theorem toNat_mul_append_zero : ((h * h') ++ (0 : BitVec w)).toNat = h.toNat * h'.toNat * 2 ^ w % 2 ^ (w + w) := by
  rw [toNat_append, BitVec.toNat_mul, Nat.pow_add, Nat.mul_mod_mul_right]
  rfl

theorem shiftLeft_append (hn : n ≤ w) : (h ++ l) <<< n = (h <<< n ||| l >>> (w - n)) ++ l <<< n := by
  apply BitVec.eq_of_getLsbD_eq
  intro i hi
  simp only [BitVec.getLsbD_append, BitVec.getLsbD_shiftLeft, BitVec.getLsbD_or, BitVec.getLsbD_ushiftRight]
  by_cases hw : i < w
  case pos => simp [hw, hi, Nat.lt_of_le_of_lt (Nat.sub_le i n) hw]
  case neg =>
    have hx : w - n + (i - w) = i - n := by omega
    have hs : i - n - w = i - w - n := by omega
    have hl : ¬i < n := by omega
    have hh : i - w < w := by omega
    by_cases hc : i - n < w
    case pos => simp [hw, hi, hc, hx, hl, show i - w < n by omega]
    case neg => simp [hw, hi, hc, hx, hl, hs, hh, show ¬i - w < n by omega, BitVec.getLsbD_of_ge l (i - n) (by omega)]

theorem shiftRight_append (hn : n ≤ w) : (h ++ l) >>> n = h >>> n ++ (h <<< (w - n) ||| l >>> n) := by
  apply BitVec.eq_of_getLsbD_eq
  intro i hi
  simp only [BitVec.getLsbD_append, BitVec.getLsbD_shiftLeft, BitVec.getLsbD_or, BitVec.getLsbD_ushiftRight]
  by_cases hw : i < w
  case pos =>
    have hx : n + i - w = i - (w - n) := by omega
    by_cases hc : n + i < w
    case pos => simp [hw, hc, show i < w - n by omega]
    case neg => simp [hw, hc, hx, show ¬i < w - n by omega, BitVec.getLsbD_of_ge l (n + i) (by omega)]
  case neg => simp [hw, show ¬n + i < w by omega, Nat.add_sub_assoc (Nat.le_of_not_lt hw)]

theorem append_or : (h ++ l) ||| (h' ++ l') = (h ||| h') ++ (l ||| l') := by
  apply BitVec.eq_of_getLsbD_eq
  intro i hi
  simp only [BitVec.getLsbD_append, BitVec.getLsbD_or]
  split <;> rfl

theorem setWidth_eq_append : l.setWidth (w + w) = (0 : BitVec w) ++ l := by
  apply BitVec.eq_of_toNat_eq
  rw [toNat_append, BitVec.toNat_setWidth_of_le (Nat.le_add_left w w)]
  simp

-- Shifts by more than a half.

theorem shiftLeft_append_of_le (hn : w ≤ n) : (h ++ l) <<< n = l <<< (n - w) ++ (0 : BitVec w) := by
  apply BitVec.eq_of_getLsbD_eq
  intro i hi
  simp only [BitVec.getLsbD_append, BitVec.getLsbD_shiftLeft, BitVec.ofNat_eq_ofNat, BitVec.getLsbD_zero]
  by_cases hw : i < w
  case pos => simp [hw, show i < n by omega]
  case neg =>
    have hs : i - w - (n - w) = i - n := by omega
    by_cases hc : i < n
    case pos => simp [hw, hc, show i - w < n - w by omega]
    case neg => simp [hw, hi, hc, hs, show i - n < w by omega, show i - w < w by omega, show ¬i - w < n - w by omega]

theorem shiftRight_append_of_le (hn : w ≤ n) : (h ++ l) >>> n = (0 : BitVec w) ++ h >>> (n - w) := by
  apply BitVec.eq_of_getLsbD_eq
  intro i hi
  simp only [BitVec.getLsbD_append, BitVec.getLsbD_ushiftRight, BitVec.ofNat_eq_ofNat, BitVec.getLsbD_zero]
  by_cases hw : i < w
  case pos => simp [hw, show ¬n + i < w by omega, show n + i - w = n - w + i by omega]
  case neg => simp [hw, show ¬n + i < w by omega, BitVec.getLsbD_of_ge h (n + i - w) (by omega)]

end Append
end Halves
