import Ysyx.CMinirv.Basic
import Ysyx.Rv32.Encode

-- `inst_cycle` decodes the machine words of the instruction formats.

open Rv32 BitVec

namespace CMinirv

theorem toNat_append_add {n m : Nat} (x : BitVec n) (y : BitVec m) :
    (x ++ y).toNat = x.toNat * 2 ^ m + y.toNat := by
  rw [toNat_append, ← Nat.shiftLeft_add_eq_or_of_lt y.isLt, Nat.shiftLeft_eq]

theorem field_eq {w : Word} {k n : Nat} {x : BitVec n} (h : w.toNat / 2 ^ k % 2 ^ n = x.toNat) (hn : n < 32) :
    (w >>> k) &&& BitVec.ofNat 32 (2 ^ n - 1) = x.setWidth 32 := by
  have hp : 2 ^ n < 2 ^ 32 := Nat.pow_lt_pow_right (by decide) hn
  apply BitVec.eq_of_toNat_eq
  rw [toNat_and, toNat_ushiftRight, toNat_ofNat, Nat.mod_eq_of_lt (by omega), Nat.and_two_pow_sub_one_eq_mod,
    Nat.shiftRight_eq_div_pow, h, toNat_setWidth, Nat.mod_eq_of_lt (Nat.lt_trans x.isLt hp)]

variable (f7 : BitVec 7) (r2 r1 r : BitVec 5) (f3 : BitVec 3) (op : BitVec 7) (imm : BitVec 12)

theorem opcode_append (h : BitVec 25) : opcode (h ++ op) = op.setWidth 32 := by
  have := field_eq (w := h ++ op) (k := 0) (x := op) (by rw [toNat_append_add]; omega) (by decide)
  simpa [opcode] using this

theorem rd_append (h : BitVec 20) : rd (h ++ r ++ op) = r.setWidth 32 :=
  field_eq (k := 7) (n := 5) (by simp only [toNat_append_add]; omega) (by decide)

theorem funct3_append (h : BitVec 17) : funct3 (h ++ f3 ++ r ++ op) = f3.setWidth 32 :=
  field_eq (k := 12) (n := 3) (by simp only [toNat_append_add]; omega) (by decide)

theorem rs1_append (h : BitVec 12) : rs1 (h ++ r1 ++ f3 ++ r ++ op) = r1.setWidth 32 :=
  field_eq (k := 15) (n := 5) (by simp only [toNat_append_add]; omega) (by decide)

theorem rs2_append : rs2 (f7 ++ r2 ++ r1 ++ f3 ++ r ++ op) = r2.setWidth 32 :=
  field_eq (k := 20) (n := 5) (by simp only [toNat_append_add]; omega) (by decide)

theorem funct7_append : funct7 (f7 ++ r2 ++ r1 ++ f3 ++ r ++ op) = f7.setWidth 32 :=
  field_eq (k := 25) (n := 7) (by simp only [toNat_append_add]; omega) (by decide)

theorem imm32_setWidth : imm32 (imm.setWidth 32) = imm.signExtend 32 := by
  refine eq_of_getLsbD_eq fun i hi => ?_
  rw [imm32, getLsbD_sshiftRight, getLsbD_signExtend]
  by_cases h : i < 12
  case pos => simp [h, hi, show 20 + i < 32 by omega, show ¬32 ≤ i by omega, -getLsbD_eq_getElem]
  case neg => simp [h, hi, show ¬20 + i < 32 by omega, msb_eq_getLsbD_last, -getLsbD_eq_getElem]

theorem immI_append : immI (imm ++ r1 ++ f3 ++ r ++ op) = imm.signExtend 32 := by
  rw [immI, ← imm32_setWidth]
  congr 1
  apply BitVec.eq_of_toNat_eq
  rw [toNat_ushiftRight, Nat.shiftRight_eq_div_pow, toNat_setWidth]
  simp only [toNat_append_add]
  omega

theorem immS_append :
    immS (imm.extractLsb' 5 7 ++ r2 ++ r1 ++ f3 ++ imm.extractLsb' 0 5 ++ op) = imm.signExtend 32 := by
  have hlo : (imm.extractLsb' 5 7 ++ r2 ++ r1 ++ f3 ++ imm.extractLsb' 0 5 ++ op) >>> 7 &&& 0x1f#32 =
      (imm.extractLsb' 0 5).setWidth 32 := rd_append ..
  have hhi : (imm.extractLsb' 5 7 ++ r2 ++ r1 ++ f3 ++ imm.extractLsb' 0 5 ++ op) >>> 25 =
      (imm.extractLsb' 5 7).setWidth 32 := by
    apply BitVec.eq_of_toNat_eq
    rw [toNat_ushiftRight, Nat.shiftRight_eq_div_pow, toNat_setWidth]
    simp only [toNat_append_add]
    omega
  rw [immS, ← imm32_setWidth, hlo, hhi]
  congr 1
  refine eq_of_getLsbD_eq fun i hi => ?_
  by_cases h : i < 5
  case pos => simp [h, hi, -getLsbD_eq_getElem]
  case neg =>
    have : 5 + (i - 5) = i := by omega
    by_cases h' : i < 12
    case pos =>
      simp [h, hi, this, show i - 5 < 7 by omega, show i - 5 < 32 by omega, -getLsbD_eq_getElem]
    case neg =>
      simp [h, show ¬i - 5 < 7 by omega, getLsbD_of_ge _ i (Nat.le_of_not_lt h'), -getLsbD_eq_getElem]

theorem immU_append (imm : BitVec 20) : (imm ++ r ++ op) &&& 0xfffff000 = imm ++ 0#12 := by
  have hm : (0xfffff000 : Word) = allOnes 20 ++ 0#12 := by decide
  refine eq_of_getLsbD_eq fun i hi => ?_
  rw [hm, getLsbD_and, getLsbD_append, getLsbD_append, getLsbD_append, getLsbD_append, getLsbD_allOnes]
  by_cases h : i < 12
  case pos => simp [h]
  case neg =>
    simp [h, show ¬i < 7 by omega, show ¬i - 7 < 5 by omega, show i - 12 < 20 by omega, Nat.sub_sub]

namespace State

variable {M : Type} {s : State M} {r : Reg} {v : Word}

theorem reg_bits : s.reg (r.bits.setWidth 32) = s.register r := by
  simp [reg, Reg.bits]

theorem setReg_bits :
    s.setReg (r.bits.setWidth 32) v = { s with register := Function.update s.register r v } := by
  simp [setReg, Reg.bits]

end State

section

variable {M : Type} {bus : Bus M} {s : State M} {d r₁ r₂ : Reg} {imm : BitVec 12}

theorem execute_add : execute bus (Instr.add d r₁ r₂).encode s =
    .ok { s with register := Function.update s.register d (s.register r₁ + s.register r₂) } := by
  rw [execute, Instr.encode, opcode_append, funct3_append, funct7_append, rd_append, rs1_append, rs2_append]
  simp [State.reg_bits, State.setReg_bits]

theorem execute_addi : execute bus (Instr.addi d r₁ imm).encode s =
    .ok { s with register := Function.update s.register d (s.register r₁ + imm.signExtend 32) } := by
  rw [execute, Instr.encode, opcode_append, funct3_append, rd_append, rs1_append, immI_append]
  simp [State.reg_bits, State.setReg_bits]

theorem execute_lui {imm : BitVec 20} : execute bus (Instr.lui d imm).encode s =
    .ok { s with register := Function.update s.register d (imm ++ 0#12) } := by
  rw [execute, Instr.encode, opcode_append, rd_append, immU_append]
  simp [State.setReg_bits]

theorem execute_jalr : execute bus (Instr.jalr d r₁ imm).encode s = .ok { s with
    register := Function.update s.register d s.pc
    pc := (s.register r₁ + imm.signExtend 32) &&& ~~~1 } := by
  rw [execute, Instr.encode, opcode_append, funct3_append, rd_append, rs1_append, immI_append]
  simp [State.reg_bits, State.setReg_bits]

theorem execute_lw : execute bus (Instr.lw d imm r₁).encode s = do
    let v ← bus.lw s.memory (s.register r₁ + imm.signExtend 32)
    return { s with register := Function.update s.register d v } := by
  rw [execute, Instr.encode, opcode_append, funct3_append, rd_append, rs1_append, immI_append]
  simp [State.reg_bits, State.setReg_bits]

theorem execute_lbu : execute bus (Instr.lbu d imm r₁).encode s = do
    let b ← bus.lbu s.memory (s.register r₁ + imm.signExtend 32)
    return { s with register := Function.update s.register d (b.setWidth 32) } := by
  rw [execute, Instr.encode, opcode_append, funct3_append, rd_append, rs1_append, immI_append]
  simp [State.reg_bits, State.setReg_bits]

theorem execute_sw : execute bus (Instr.sw r₂ imm r₁).encode s = do
    let m ← bus.sw s.memory (s.register r₁ + imm.signExtend 32) (s.register r₂)
    return { s with memory := m } := by
  rw [execute, Instr.encode, opcode_append, funct3_append, rs1_append, rs2_append, immS_append]
  simp [State.reg_bits]

theorem execute_sb : execute bus (Instr.sb r₂ imm r₁).encode s = do
    let m ← bus.sb s.memory (s.register r₁ + imm.signExtend 32) ((s.register r₂ &&& 0xff).setWidth 8)
    return { s with memory := m } := by
  rw [execute, Instr.encode, opcode_append, funct3_append, rs1_append, rs2_append, immS_append]
  simp [State.reg_bits]

end

end CMinirv
