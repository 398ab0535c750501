import Ysyx.Nemu.Inst
import Ysyx.Nemu.Theorems.Cpu

-- The patterns of `decode_exec` select the instructions, and their operands are those of the formats.

namespace Nemu.Riscv32

variable {D R : Type} {sys : System D R} {cfg : Config} {m : Machine D R} {s : Decode} {i : Word}
variable {ps : List (InstPat D R)} {p : InstPat D R} {d : Decoded} {hi lo k : Nat}

open EState (bind_of_ok get_bind ite_run)

section Bits

theorem BITMASK_eq : ∀ n ≤ 32, BITMASK n = BitVec.ofNat 64 (2 ^ n - 1) := by
  decide

theorem BITS_eq (h : hi < 32) : BITS i hi lo = (i.extractLsb' lo (hi - lo + 1)).setWidth 64 := by
  ext k hk
  rw [← BitVec.getLsbD_eq_getElem, ← BitVec.getLsbD_eq_getElem, BITS, BitVec.getLsbD_and, BITMASK_eq _ (by omega),
    BitVec.getLsbD_ofNat, Nat.testBit_two_pow_sub_one]
  simp [hk]
  grind

theorem toNat_BITS (h : hi < 32) : (BITS i hi lo).toNat = (i.extractLsb' lo (hi - lo + 1)).toNat := by
  rw [BITS_eq h]
  exact BitVec.toNat_setWidth_of_le (by omega)

theorem SEXT_eq (v : BitVec k) (h : k ≤ 64) : SEXT (v.setWidth 64) k = v.signExtend 64 := by
  rw [SEXT, BitVec.setWidth_setWidth_of_le _ h, BitVec.setWidth_eq]

theorem setWidth_signExtend (v : BitVec k) : (v.signExtend 64).setWidth 32 = v.signExtend 32 := by
  ext j hj
  simp [BitVec.getElem_signExtend]
  grind

theorem immI_eq : immI i = Nemu.immI i := by
  rw [immI, Nemu.immI, BITS_eq (by decide), SEXT_eq _ (by decide), setWidth_signExtend]

theorem immU_eq : immU i = Nemu.immU i := by
  rw [immU, Nemu.immU, BITS_eq (by decide), SEXT_eq _ (by decide), BitVec.setWidth_shiftLeft_of_le (by decide),
    setWidth_signExtend]

theorem immS_eq : immS i = Nemu.immS i := by
  rw [immS, Nemu.immS, BITS_eq (by decide), BITS_eq (by decide), SEXT_eq _ (by decide), BitVec.setWidth_or,
    BitVec.setWidth_shiftLeft_of_le (by decide), setWidth_signExtend,
    BitVec.setWidth_setWidth_of_le _ (by decide)]

end Bits

section Registers

theorem rd_eq : (BITS i 11 7).toNat = (rd i).toNat :=
  toNat_BITS (by decide)

theorem rs1_eq : (BITS i 19 15).toNat = (rs1 i).toNat :=
  toNat_BITS (by decide)

theorem rs2_eq : (BITS i 24 20).toNat = (rs2 i).toNat :=
  toNat_BITS (by decide)

theorem check_reg_idx_eq (r : BitVec 5) : (check_reg_idx cfg r.toNat : Exec D R _) = pure r := by
  rw [check_reg_idx, if_neg fun h => h.right r.isLt, BitVec.ofNat_toNat, BitVec.setWidth_eq]

theorem gpr_eq (r : BitVec 5) : (gpr cfg r.toNat : Exec D R _) m = .ok (m.gpr r) m := by
  rw [gpr, check_reg_idx_eq]
  rfl

theorem assignGpr_eq (r : BitVec 5) (v : Word) : (assignGpr cfg r.toNat v : Exec D R _) = setGpr r v := by
  rw [assignGpr, check_reg_idx_eq]
  rfl

end Registers

section Patterns

theorem instpat_cons {pattern : String} {type : InstType} {body : Decode → Operands → Exec D R Unit}
    (h : pattern_decode pattern.toList pattern.length = .ok d) : instpat sys s ({ pattern, type, body } :: ps) m =
      if d.test (s.inst.setWidth 64) then (decode_operand sys.toConfig s type >>= body s) m
      else instpat sys s ps m := by
  rw [instpat, h]
  exact ite_apply ..

-- A pattern that is not shifted looks at the bits of its mask.
theorem test_iff (key mask : Word) :
    Decoded.test ⟨key.setWidth 64, mask.setWidth 64, 0⟩ (i.setWidth 64) = true ↔ i &&& mask = key := by
  have hz : i.setWidth 64 >>> (0 : BitVec 64) = i.setWidth 64 := BitVec.ushiftRight_zero ..
  rw [Decoded.test, beq_iff_eq, hz, ← BitVec.setWidth_and]
  exact ⟨fun h => by simpa using congrArg (BitVec.setWidth 32) h, congrArg _⟩

theorem test_inv : Decoded.test ⟨0, 0, 32⟩ (i.setWidth 64) = true := by
  rw [Decoded.test, beq_iff_eq]
  exact BitVec.and_zero

theorem decode_operand_I : decode_operand cfg s .TYPE_I m =
    .ok { rd := (rd s.inst).toNat, src1 := m.gpr (rs1 s.inst), imm := Nemu.immI s.inst } m := by
  rw [decode_operand, rd_eq, rs1_eq, bind_of_ok (gpr_eq _), immI_eq]
  rfl

theorem decode_operand_U : decode_operand cfg s .TYPE_U m =
    .ok { rd := (rd s.inst).toNat, imm := Nemu.immU s.inst } m := by
  rw [decode_operand, rd_eq, immU_eq]
  rfl

theorem decode_operand_S : decode_operand cfg s .TYPE_S m = .ok {
    rd   := (rd s.inst).toNat
    src1 := m.gpr (rs1 s.inst)
    src2 := m.gpr (rs2 s.inst)
    imm  := Nemu.immS s.inst } m := by
  rw [decode_operand, rd_eq, rs1_eq, rs2_eq, bind_of_ok (gpr_eq _), bind_of_ok (gpr_eq _), immS_eq]
  rfl

theorem decode_operand_N : decode_operand cfg s .TYPE_N m = .ok { rd := (rd s.inst).toNat } m := by
  rw [decode_operand, rd_eq]
  rfl

-- The first pattern that matches is the one that `perform` selects.
theorem instpat_eq : instpat sys s (instpats sys) m = sys.perform s.pc s.inst m := by
  have h₁ : Decoded.test ⟨0x17, 0x7f, 0⟩ (s.inst.setWidth 64) = true ↔ s.inst &&& 0x7f = 0x17 := test_iff 0x17 0x7f
  have h₂ : Decoded.test ⟨0x4003, 0x707f, 0⟩ (s.inst.setWidth 64) = true ↔ s.inst &&& 0x707f = 0x4003 :=
    test_iff 0x4003 0x707f
  have h₃ : Decoded.test ⟨0x23, 0x707f, 0⟩ (s.inst.setWidth 64) = true ↔ s.inst &&& 0x707f = 0x23 :=
    test_iff 0x23 0x707f
  have h₄ : Decoded.test ⟨0x100073, 0xffffffff, 0⟩ (s.inst.setWidth 64) = true ↔ s.inst = 0x100073 := by
    have h := test_iff (i := s.inst) 0x100073 0xffffffff
    rwa [show (0xffffffff : Word) = BitVec.allOnes 32 by rfl, BitVec.and_allOnes] at h
  have hg : (gpr sys.toConfig 10 : Exec D R _) m = .ok (m.gpr 10) m := gpr_eq 10
  rw [instpats, instpat_cons (d := ⟨0x17, 0x7f, 0⟩) (by decide), instpat_cons (d := ⟨0x4003, 0x707f, 0⟩) (by decide),
    instpat_cons (d := ⟨0x23, 0x707f, 0⟩) (by decide), instpat_cons (d := ⟨0x100073, 0xffffffff, 0⟩) (by decide),
    instpat_cons (d := ⟨0, 0, 32⟩) (by decide), if_pos test_inv]
  simp only [System.perform, get_bind, bind_of_ok decode_operand_I, bind_of_ok decode_operand_U,
    bind_of_ok decode_operand_S, bind_of_ok decode_operand_N, assignGpr_eq, h₁, h₂, h₃, h₄, bind_of_ok hg, ite_run]

end Patterns

theorem decode_exec_eq : decode_exec sys s =
    sys.decode_exec s.pc s.snpc s.inst >>= fun dnpc => pure { s with dnpc } := by
  have hp : instpat sys { s with dnpc := s.snpc } (instpats sys) = sys.perform s.pc s.inst :=
    funext fun _ => instpat_eq
  have hz : (assignGpr sys.toConfig 0 0 : Exec D R Unit) = setGpr 0 0 := assignGpr_eq 0 0
  simp only [decode_exec, System.decode_exec, hp, hz, bind_assoc, pure_bind]

-- One instruction of the interpreter is one of the simpler one without patterns.
theorem exec_once_eq {pc : Word} : exec_once sys s pc >>= (fun _ => pure ()) = sys.exec_once pc := by
  simp only [exec_once, isa_exec_once, System.exec_once, decode_exec_eq, bind_assoc, pure_bind, bind_pure_unit]

end Nemu.Riscv32
