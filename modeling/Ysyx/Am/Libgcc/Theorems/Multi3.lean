import Mathlib.Tactic.LinearCombination
import Ysyx.Am.Libgcc.Multi3
import Ysyx.Am.Libgcc.Theorems.Mulsi3

-- `__muldi3` multiplies. Its loop multiplies the low halves, where what is summed up so far and the product of what is
-- left make up the product.

namespace Am.Libgcc

open Halves Rv32

namespace Multi3

variable {v : Vars}

def sum (v : Vars) : DWtype :=
  v.wHigh ++ v.wLow

def multiplicand (v : Vars) : DWtype :=
  v.wHighTmp ++ v.uLow

theorem sum_round : sum (round v) = if v.vLow &&& 1 = 0 then sum v else sum v + multiplicand v := by
  rw [sum, sum, multiplicand, append_add, round]
  dsimp only
  by_cases h : v.vLow &&& 1 = 0
  case pos => rw [if_pos h, if_neg (not_not.mpr h), if_neg (not_not.mpr h)]
  case neg => rw [if_neg h, if_pos h, if_pos h, BitVec.add_comm _ (_ + _), BitVec.add_comm v.wHighTmp]

theorem multiplicand_round : multiplicand (round v) = multiplicand v <<< 1 := by
  rw [multiplicand, multiplicand, shiftLeft_append (by decide), round, BitVec.or_comm]

-- What the loop keeps.
theorem round_eq : sum (round v) + multiplicand (round v) * ((round v).vLow.toNat : DWtype) =
    sum v + multiplicand v * (v.vLow.toNat : DWtype) := by
  rw [sum_round, multiplicand_round]
  exact Multiplication.round_words

theorem loop_eq : sum (loop v) = sum v + multiplicand v * (v.vLow.toNat : DWtype) := by
  induction v using loop.induct
  case case1 v h =>
    rw [loop, if_pos h, ← round_eq, h]
    simp
  case case2 v h hi => rw [loop, if_neg h, hi, round_eq]

end Multi3

section Halves

theorem halves (u : DWtype) : (high u : Word) ++ (low u : Word) = u :=
  high_append_low

variable {h h' l l' : Word}

theorem append_eq_cast : (h ++ l : DWtype) = (h.toNat * 2 ^ 32 + l.toNat : Nat) := by
  have ha : (h ++ l : DWtype).toNat = h.toNat * 2 ^ 32 + l.toNat := toNat_append
  rw [BitVec.natCast_eq_ofNat, ← ha, BitVec.ofNat_toNat, BitVec.setWidth_eq]

theorem mul_append_zero : ((h * h') ++ (0 : Word) : DWtype) = (h.toNat * h'.toNat * 2 ^ 32 : Nat) := by
  apply BitVec.eq_of_toNat_eq
  rw [BitVec.natCast_eq_ofNat, BitVec.toNat_ofNat]
  exact toNat_mul_append_zero

-- The product of the high halves is out of the word.
theorem mul_halves : (h ++ l : DWtype) * (h' ++ l' : DWtype) =
    ((0 : Word) ++ l : DWtype) * (l'.toNat : DWtype) + ((l' * h) ++ (0 : Word)) + ((l * h') ++ (0 : Word)) := by
  have ho : ((2 ^ 32 : Nat) * (2 ^ 32 : Nat) : DWtype) = 0 := rfl
  rw [mul_append_zero, mul_append_zero, append_eq_cast, append_eq_cast, append_eq_cast]
  have hz : (0 : Word).toNat = 0 := rfl
  generalize 2 ^ 32 = k at ho
  rw [hz, Nat.zero_mul, Nat.zero_add]
  push_cast
  linear_combination (h.toNat * h'.toNat : DWtype) * ho

end Halves

-- The call of the inline assembler, which relies on it that the routine keeps the other registers.
theorem muluw3_call {addr : Nat → Word} {s : State} (h : Asm.Placed Muldi3.program addr)
    (hp : s.pc = addr Muldi3.mulsi3) : ∃ s', Asm.Returns Muldi3.program addr [Asm.a0, Asm.a1, Asm.a2, Asm.a3] s s' ∧
      s'.reg Asm.a0 = muluw3 (s.reg Asm.a0) (s.reg Asm.a1) :=
  Muldi3.mulsi3_returns h hp

theorem muldi3_eq (u v : DWtype) : muldi3 u v = u * v := by
  have ha (x y z : Word) : (if y ≠ 0 then x + muluw3 z y else x) = x + z * y := by
    split_ifs
    case pos => rfl
    case neg h => simp [not_not.mp h]
  have hl := Multi3.loop_eq (v := { uLow := low u, vLow := low v, wLow := 0, wHigh := 0, wHighTmp := 0 })
  simp only [Multi3.sum, Multi3.multiplicand] at hl
  rw [muldi3, ha, ha, ← append_add_high, ← append_add_high, hl]
  conv_rhs => rw [← halves u, ← halves v, mul_halves]
  simp

theorem ashldi3_eq {u : DWtype} {b : Int} (h₀ : 0 ≤ b) (h : b < 64) : ashldi3 u b = u <<< b.toNat := by
  rw [ashldi3]
  dsimp only
  split_ifs
  case pos hb => simp [hb]
  case pos hb =>
    conv_rhs => rw [← halves u, shiftLeft_append_of_le (by omega)]
    rw [show (-(32 - b)).toNat = b.toNat - 32 by omega]
  case neg hb =>
    conv_rhs => rw [← halves u, shiftLeft_append (by omega)]
    rw [show (32 - b).toNat = 32 - b.toNat by omega]

end Am.Libgcc
