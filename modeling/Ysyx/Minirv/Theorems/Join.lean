import Ysyx.Minirv.Lut

-- The right shifts assemble their result from bytes of four table words. Entry `n` of the table for
-- byte `k` of the operand is the byte at the top of a word, shifted right by `n`.

open Rv32 BitVec

namespace InstReplace

variable {x y y0 y1 y2 z : Word} {a b : Byte} {i j k n p : Nat}

theorem getLsbD_srl8 (hk : k + i = 3 + p) (hj : j < 8) : ((srl8 n (x.byte k).toNat).byte i).getLsbD j =
    (decide (24 ≤ 8 * i + j + n ∧ 8 * i + j + n < 32) && x.getLsbD (8 * p + j + n)) := by
  rw [srl8, BitVec.ofNat_toNat]
  simp only [getLsbD_byte, getLsbD_ushiftRight, getLsbD_shiftLeft, getLsbD_setWidth, hj, decide_true, Bool.true_and]
  by_cases h : 24 ≤ 8 * i + j + n ∧ 8 * i + j + n < 32
  case pos =>
    have h₁ : 8 * k + (n + (8 * i + j) - 24) = 8 * p + j + n := by omega
    have h₂ : n + (8 * i + j) < 32 := by omega
    have h₃ : ¬n + (8 * i + j) < 24 := by omega
    have h₄ : n + (8 * i + j) - 24 < 8 := by omega
    simp only [h, h₁, h₂, h₃, h₄]
    simp
    omega
  case neg =>
    simp [h]
    omega

theorem add_setWidth (h : a &&& b = 0) : a.setWidth 32 + b.setWidth 32 = (a ||| b).setWidth 32 := by
  rw [BitVec.add_eq_or_of_and_eq_zero, BitVec.setWidth_or]
  rw [← BitVec.setWidth_and, h]
  rfl

-- The lower three bytes of the result, from the words fetched for the bytes 2, 1 and 0.
def srlJoin (y2 y1 y0 : Word) : Word :=
  let b0 : Word := (y2.byte 1).setWidth 32 + (y1.byte 2).setWidth 32 + (y0.byte 3).setWidth 32
  let b1 : Word := (y2.byte 2).setWidth 32 + (y1.byte 3).setWidth 32
  (b0.setByte 1 (b1.byte 0)).setByte 2 (y2.byte 3)

theorem srlJoin_eq (h₁ : y2.byte 1 &&& y1.byte 2 = 0) (h₂ : (y2.byte 1 ||| y1.byte 2) &&& y0.byte 3 = 0)
    (h₃ : y2.byte 2 &&& y1.byte 3 = 0) : srlJoin y2 y1 y0 =
      (((y2.byte 1 ||| y1.byte 2 ||| y0.byte 3).setWidth 32).setByte 1 (y2.byte 2 ||| y1.byte 3)).setByte 2
        (y2.byte 3) := by
  simp only [srlJoin, add_setWidth h₁, add_setWidth h₂, add_setWidth h₃, byte_setWidth_zero]

theorem getLsbD_eq_byte {v : Word} : v.getLsbD j = (v.byte (j / 8)).getLsbD (j % 8) := by
  rw [getLsbD_byte, Nat.div_add_mod]
  simp [Nat.mod_lt]

-- Bits of different operand bytes do not meet.
theorem srl8_and_srl8 (k i k' i' : Nat) (h : k + i = 3 + p) (h' : k' + i' = 3 + p) (hi : i ≠ i') :
    (srl8 n (x.byte k).toNat).byte i &&& (srl8 n (x.byte k').toNat).byte i' = 0 := by
  refine eq_of_getLsbD_eq fun j hj => ?_
  rw [getLsbD_and, getLsbD_srl8 h hj, getLsbD_srl8 h' hj]
  simp
  omega

def srlLow (n : Nat) (x : Word) : Word :=
  srlJoin (srl8 n (x.byte 2).toNat) (srl8 n (x.byte 1).toNat) (srl8 n (x.byte 0).toNat)

theorem getLsbD_byte_srlLow (hp : p < 4) (h : j < 8) :
    ((srlLow n x).byte p).getLsbD j = (decide (8 * p + j + n < 24) && x.getLsbD (8 * p + j + n)) := by
  have h₂ : ((srl8 n (x.byte 2).toNat).byte 1 ||| (srl8 n (x.byte 1).toNat).byte 2) &&&
      (srl8 n (x.byte 0).toNat).byte 3 = 0 := by
    rw [BitVec.and_or_distrib_right, srl8_and_srl8 (p := 0) 2 1 0 3 rfl rfl (by decide),
      srl8_and_srl8 (p := 0) 1 2 0 3 rfl rfl (by decide), BitVec.or_self]
  rw [srlLow, srlJoin_eq (srl8_and_srl8 (p := 0) 2 1 1 2 rfl rfl (by decide)) h₂
      (srl8_and_srl8 (p := 1) 2 2 1 3 rfl rfl (by decide)),
    byte_setByte hp, byte_setByte hp]
  obtain rfl | rfl | rfl | rfl : p = 0 ∨ p = 1 ∨ p = 2 ∨ p = 3 := by omega
  case inl =>
    rw [if_neg (by decide), if_neg (by decide), byte_setWidth_zero, getLsbD_or, getLsbD_or,
      getLsbD_srl8 (k := 2) (p := 0) rfl h, getLsbD_srl8 (k := 1) (p := 0) rfl h,
      getLsbD_srl8 (k := 0) (p := 0) rfl h, ← Bool.and_or_distrib_right, ← Bool.and_or_distrib_right]
    congr 1
    simp only [← Bool.decide_or, decide_eq_decide]
    omega
  case inr.inl =>
    rw [if_neg (by decide), if_pos rfl, getLsbD_or, getLsbD_srl8 (k := 2) (p := 1) rfl h,
      getLsbD_srl8 (k := 1) (p := 1) rfl h, ← Bool.and_or_distrib_right]
    congr 1
    simp only [← Bool.decide_or, decide_eq_decide]
    omega
  case inr.inr.inl =>
    rw [if_pos rfl, getLsbD_srl8 (k := 2) (p := 2) rfl h]
    congr 1
    simp only [decide_eq_decide]
    omega
  case inr.inr.inr =>
    rw [if_neg (by decide), if_neg (by decide), byte_setWidth, if_neg (by decide)]
    simp
    omega

theorem srlLow_add (h₃ : ∀ j < 32, y.getLsbD j = (decide (24 ≤ j + n) && z.getLsbD j))
    (hz : ∀ j < 32, j + n < 24 → z.getLsbD j = x.getLsbD (j + n)) : srlLow n x + y = z := by
  have hl : ∀ j < 32, (srlLow n x).getLsbD j = (decide (j + n < 24) && z.getLsbD j) := by
    intro j hj
    rw [getLsbD_eq_byte, getLsbD_byte_srlLow (by omega) (Nat.mod_lt _ (by decide)), Nat.div_add_mod]
    by_cases h : j + n < 24
    case pos => simp [h, hz j hj h]
    case neg => simp [h]
  rw [BitVec.add_eq_or_of_and_eq_zero]
  all_goals
    refine eq_of_getLsbD_eq fun j hj => ?_
    by_cases h : j + n < 24
    case pos => simp only [getLsbD_or, getLsbD_and, hl j hj, h₃ j hj, h, Nat.not_le.mpr h]; simp
    case neg => simp only [getLsbD_or, getLsbD_and, hl j hj, h₃ j hj, h, Nat.not_lt.mp h]; simp

theorem srl8_join : srlLow n x + srl8 n (x.byte 3).toNat = x >>> n := by
  refine srlLow_add (fun j _ => ?_) (fun j _ _ => by rw [getLsbD_ushiftRight, Nat.add_comm])
  rw [getLsbD_eq_byte, getLsbD_srl8 (p := j / 8) (by omega) (Nat.mod_lt _ (by decide)), Nat.div_add_mod,
    getLsbD_ushiftRight, Nat.add_comm n]
  by_cases h : j + n < 32
  case pos => simp [h]
  case neg => simp [h, getLsbD_of_ge x (j + n) (by omega)]

theorem getLsbD_sra8 :
    (sra8 n (x.byte 3).toNat).getLsbD j = (decide (24 ≤ j + n) && (x.sshiftRight n).getLsbD j) := by
  rw [sra8, BitVec.ofNat_toNat, getLsbD_sshiftRight, getLsbD_sshiftRight]
  simp only [getLsbD_shiftLeft, getLsbD_setWidth, getLsbD_byte]
  by_cases h₁ : n + j < 32
  case neg =>
    have hm : BitVec.msb ((x.byte 3).setWidth 32 <<< 24) = BitVec.msb x := by
      simp [msb_eq_getLsbD_last, -getLsbD_eq_getElem]
    rw [if_neg h₁, if_neg h₁, hm]
    simp
    omega
  case pos =>
    by_cases h₂ : n + j < 24
    case pos => simp [h₁, h₂, show ¬24 ≤ j + n by omega]
    case neg =>
      have h₃ : 8 * 3 + (n + j - 24) = n + j := by omega
      rw [if_pos h₁, if_pos h₁, h₃]
      simp [h₁, h₂, show n + j - 24 < 32 by omega, show n + j - 24 < 8 by omega, show 24 ≤ j + n by omega]

theorem sra8_join : srlLow n x + sra8 n (x.byte 3).toNat = x.sshiftRight n := by
  refine srlLow_add (fun _ _ => getLsbD_sra8) (fun j _ h => ?_)
  rw [getLsbD_sshiftRight, if_pos (by omega), Nat.add_comm]
  simp
  omega

theorem sra8_24 : sra8 24 (x.byte 3).toNat = x.sshiftRight 24 := by
  refine eq_of_getLsbD_eq fun j hj => ?_
  rw [getLsbD_sra8]
  simp

theorem byte_3_eq : (x.byte 3).setWidth 32 = x >>> 24 := by
  refine eq_of_getLsbD_eq fun j hj => ?_
  rw [getLsbD_setWidth, getLsbD_byte, getLsbD_ushiftRight]
  by_cases h : j < 8
  case pos => simp [h, hj]
  case neg => simp [h, getLsbD_of_ge x (24 + j) (by omega)]

end InstReplace
