import Ysyx.Minirv.Scratch

open Rv32 State InstReplace BitVec

namespace InstReplace

variable {s : State} {rd rs1 : Reg} {n imm : Nat} {v w : Word} {b : Byte}

theorem shiftLeft_add_self : v <<< n + v <<< n = v <<< (n + 1) := by
  rw [← BitVec.mul_two, BitVec.shiftLeft_add, BitVec.shiftLeft_eq_mul_twoPow _ 1]
  rfl

theorem run_doubling : s.run (.add rd rs1 rs1 :: List.replicate n (.add rd rd rd)) =
    (s.setReg rd (s.reg rs1 <<< (n + 1))).jump (s.pc + BitVec.ofNat 32 (4 * (n + 1))) := by
  induction n generalizing s rs1
  case zero => simp [next, ← shiftLeft_add_self]
  case succ n hi =>
    have hp : s.pc + 4#32 + BitVec.ofNat 32 (4 * (n + 1)) = s.pc + BitVec.ofNat 32 (4 * (n + 1 + 1)) := by
      rw [Nat.mul_succ _ (n + 1), Nat.add_comm _ 4, BitVec.ofNat_add, BitVec.add_assoc]
    rw [List.replicate_succ, run_cons, hi, exec_add]
    by_cases h : rd = 0
    case pos => simp [h, setReg_zero, hp, next, jump_jump]
    case neg => simp [h, next, jump_setReg, setReg_setReg, jump_jump, hp, shiftLeft_add_self]

-- A shift by less than 16 doubles the operand.
@[simp] theorem run_slli (h : imm < 16) : s.run (slli rd rs1 imm) =
    (s.setReg rd (s.reg rs1 <<< imm)).jump (s.pc + BitVec.ofNat 32 (4 * (slli rd rs1 imm).length)) := by
  cases imm
  case zero =>
    rw [slli]
    by_cases hr : rd = rs1
    case pos => simp [hr]
    case neg => simp [hr, next]
  case succ n =>
    have hs : slli rd rs1 (n + 1) = .add rd rs1 rs1 :: List.replicate n (.add rd rd rd) := by
      rw [slli, if_neg (Nat.succ_ne_zero n), if_neg (by omega), if_neg (Nat.not_le.mpr h)]
      rfl
    rw [hs, run_doubling]
    simp

-- Bytes and halfwords that are stored in the upper bytes of a cleared variable are shifted there.
section Bytes

theorem byte_shiftLeft {i k : Nat} (h : i < 4) : (v <<< (8 * k)).byte i = if k ≤ i then v.byte (i - k) else 0 := by
  ext j hj
  by_cases hk : k ≤ i
  case pos =>
    have h₁ : ¬8 * i + j < 8 * k := by omega
    have h₂ : 8 * i + j - 8 * k = 8 * (i - k) + j := by omega
    simp [hk, byte, h₁, h₂]
    omega
  case neg =>
    have h₁ : 8 * i + j < 8 * k := by omega
    simp [hk, byte, h₁]

theorem shiftLeft_24_eq : v <<< 24 = (0 : Word).setByte 3 (v.byte 0) := by
  refine eq_of_byte fun i hi => ?_
  rw [byte_setByte hi, byte_shiftLeft (k := 3) hi, byte_zero]
  obtain rfl | h : i = 3 ∨ i < 3 := by omega
  case inl => rfl
  case inr => rw [if_neg (Nat.not_le.mpr h), if_neg (Nat.ne_of_lt h)]

-- The lower bytes of `w` are zero.
theorem shiftLeft_16_eq (h₀ : w.byte 0 = 0) (h₁ : w.byte 1 = 0) :
    v <<< 16 = (w.setByte 2 (v.byte 0)).setByte 3 (v.byte 1) := by
  refine eq_of_byte fun i hi => ?_
  rw [byte_setByte hi, byte_setByte hi, byte_shiftLeft (k := 2) hi]
  obtain rfl | rfl | rfl | rfl : i = 0 ∨ i = 1 ∨ i = 2 ∨ i = 3 := by omega
  all_goals simp [h₀, h₁]

end Bytes

section Sh

variable {n : Fin 8}

@[simp] theorem run_getbyte {k : Fin 4} : s.run (getbyte rd rs1 k) =
    ((s.setVar varC (s.reg rs1)).next.setReg rd (((s.reg rs1).byte k).setWidth 32)).next := by
  simp [getbyte]

@[simp] theorem plus_0_spVarByte {b : Fin 4} : (spVarByte n b).plus 0 = spVarByte n b := by
  simp [Addr.plus, spVarByte]

@[simp] theorem plus_1_spVarByte : (spVarByte n 2).plus 1 = spVarByte n 3 := by
  simp only [Addr.plus, spVarByte, Addr.mk.injEq, and_true]
  omega

theorem within_run_sh {W : List Reg} {V : List (Fin 8)} {M : Set Word} {s' : State} (ht : tp ∈ W) (hs : sp ∉ W)
    (hc : varC ∈ V) (hn : n ∈ V) (h₀ : n ≠ 0) :
    Within W V M s (s'.run (sh rs1 (spVarByte n 2))) ↔ Within W V M s s' := by
  simp [sh, ht, hs, hc, hn, h₀]

theorem var_run_sh (h : n ≠ varC) : (s.run (sh rs1 (spVarByte n 2))).var n =
    ((s.var n).setByte 2 ((s.reg rs1).byte 0)).setByte 3 ((s.reg rs1).byte 1) := by
  simp [sh, h]

end Sh

theorem run_append_slli {pre : List Instr} {m k : Nat} (w : Within [rd, tp] [varA, varC] ∅ s (s.run pre))
    (hv : rd ≠ 0 → (s.run pre).reg rd = v <<< m) (hk : k < 16) (hd : rd ≠ sp) :
    s.Computes (pre ++ slli rd rd k) [tp] [varA, varC] rd (v <<< (m + k)) := by
  refine .of_within ?within hd fun h₀ => ?reg
  all_goals rw [run_append, run_slli hk]
  case within => simpa [hd.symm] using w
  case reg => simp [h₀, hv h₀, BitVec.shiftLeft_add]

-- From 16 on, the operand is first moved by two or three bytes.
theorem run_slli_lt_32 (h : imm < 32) (hd : rd ≠ sp) :
    s.Computes (slli rd rs1 imm) [tp] [varA, varC] rd (s.reg rs1 <<< imm) := by
  by_cases h₁ : imm < 16
  case pos => exact ⟨s.jump _, by simp, by rw [run_slli h₁, jump_setReg]⟩
  rw [slli, if_neg (by omega)]
  by_cases h₂ : imm < 24
  case pos =>
    have hi : imm = 16 + (imm - 16) := by omega
    rw [if_neg (by omega), if_pos (by omega), hi, Nat.add_sub_cancel_left]
    refine run_append_slli ?_ (fun h₀ => ?_) (by omega) hd
    case refine_1 => simp [within_run_sh, hd.symm]
    case refine_2 =>
      rw [shiftLeft_16_eq (w := 0) byte_zero byte_zero]
      simp [var_run_sh, h₀]
  case neg =>
    have hi : imm = 24 + (imm - 24) := by omega
    rw [if_pos (by omega), hi, Nat.add_sub_cancel_left]
    refine run_append_slli ?_ (fun h₀ => ?_) (by omega) hd
    case refine_1 => simp [hd.symm]
    case refine_2 => simp [h₀, shiftLeft_24_eq]

@[simp] theorem straight_getbyte {k : Fin 4} : Straight (getbyte rd rs1 k) := by
  simp [getbyte]

@[simp] theorem straight_sh {a : Addr} : Straight (sh rs1 a) := by
  simp [sh]

@[simp] theorem straight_slli : Straight (slli rd rs1 imm) := by
  fun_induction slli rd rs1 imm
  case case1 => simp
  case case2 => simp
  case case3 hi => simp [hi]
  case case4 hi => simp [hi]
  case case5 => simp [Straight]

end InstReplace
