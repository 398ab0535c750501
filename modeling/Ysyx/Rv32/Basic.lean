import Ysyx.Bytes.LittleEndian

-- The eight base instructions of RV32 that the minirv subset keeps, with their RISC-V meaning.

namespace Rv32

abbrev Reg := Fin 32

inductive Instr
  | add  (rd rs1 rs2 : Reg)
  | addi (rd rs1 : Reg) (imm : BitVec 12)
  | lui  (rd : Reg) (imm : BitVec 20)
  | lw   (rd : Reg) (imm : BitVec 12) (rs1 : Reg)
  | lbu  (rd : Reg) (imm : BitVec 12) (rs1 : Reg)
  | sw   (rs2 : Reg) (imm : BitVec 12) (rs1 : Reg)
  | sb   (rs2 : Reg) (imm : BitVec 12) (rs1 : Reg)
  | jalr (rd rs1 : Reg) (imm : BitVec 12)
  deriving DecidableEq, Repr

@[ext]
structure State where
  regs : Reg → Word
  pc   : Word
  mem  : Memory 32

namespace State

variable {s : State} {r r' : Reg} {v : Word}

-- Register 0 reads as zero, whatever has been written to it.
def reg (s : State) (r : Reg) : Word :=
  if r = 0 then 0 else s.regs r

def setReg (s : State) (r : Reg) (v : Word) : State :=
  if r = 0 then s else { s with regs := Function.update s.regs r v }

def setMem (s : State) (m : Memory 32) : State :=
  { s with mem := m }

def jump (s : State) (pc : Word) : State :=
  { s with pc := pc }

def next (s : State) : State :=
  s.jump (s.pc + 4)

@[simp] theorem reg_zero : s.reg 0 = 0 := (rfl)

@[simp] theorem reg_setReg : (s.setReg r v).reg r' = if r' = r ∧ r ≠ 0 then v else s.reg r' := by
  by_cases h : r = 0 <;> by_cases h' : r' = r <;> simp_all [reg, setReg]

@[simp] theorem mem_setReg : (s.setReg r v).mem = s.mem := by
  by_cases h : r = 0 <;> simp [setReg, h]

@[simp] theorem pc_setReg : (s.setReg r v).pc = s.pc := by
  by_cases h : r = 0 <;> simp [setReg, h]

@[simp] theorem reg_setMem : (s.setMem m).reg r = s.reg r := (rfl)
@[simp] theorem mem_setMem : (s.setMem m).mem = m := (rfl)
@[simp] theorem pc_setMem : (s.setMem m).pc = s.pc := (rfl)

@[simp] theorem reg_jump : (s.jump v).reg r = s.reg r := (rfl)
@[simp] theorem mem_jump : (s.jump v).mem = s.mem := (rfl)
@[simp] theorem pc_jump : (s.jump v).pc = v := (rfl)

@[simp] theorem reg_next : s.next.reg r = s.reg r := (rfl)
@[simp] theorem mem_next : s.next.mem = s.mem := (rfl)
@[simp] theorem pc_next : s.next.pc = s.pc + 4 := (rfl)

theorem setReg_setReg {v' : Word} : (s.setReg r v).setReg r v' = s.setReg r v' := by
  by_cases h : r = 0 <;> simp [setReg, h]

theorem setReg_comm {v' : Word} (h : r ≠ r') : (s.setReg r v).setReg r' v' = (s.setReg r' v').setReg r v := by
  by_cases h₁ : r = 0 <;> by_cases h₂ : r' = 0 <;> simp [setReg, h₁, h₂, Function.update_comm h]

@[simp] theorem setReg_reg : s.setReg r (s.reg r) = s := by
  by_cases h : r = 0 <;> simp [setReg, reg, h]

theorem setReg_zero : s.setReg 0 v = s := rfl

@[simp] theorem jump_pc : s.jump s.pc = s := (rfl)

theorem jump_jump {a b : Word} : (s.jump a).jump b = s.jump b := rfl

theorem jump_setReg {a : Word} : (s.jump a).setReg r v = (s.setReg r v).jump a := by
  by_cases h : r = 0 <;> simp [setReg, jump, h]

theorem next_setReg : (s.next).setReg r v = (s.setReg r v).next := by
  rw [next, next, jump_setReg, pc_setReg]

-- The address `imm(rs1)` of a load or store.
def addr (s : State) (imm : BitVec 12) (rs1 : Reg) : Word :=
  s.reg rs1 + imm.signExtend 32

def exec (s : State) : Instr → State
  | .add rd rs1 rs2  => (s.setReg rd (s.reg rs1 + s.reg rs2)).next
  | .addi rd rs1 imm => (s.setReg rd (s.reg rs1 + imm.signExtend 32)).next
  | .lui rd imm      => (s.setReg rd (imm ++ 0#12)).next
  | .lw rd imm rs1   => (s.setReg rd (s.mem.load32 (s.addr imm rs1))).next
  | .lbu rd imm rs1  => (s.setReg rd ((s.mem (s.addr imm rs1)).setWidth 32)).next
  | .sw rs2 imm rs1  => (s.setMem (s.mem.store (s.addr imm rs1) 4 (s.reg rs2))).next
  | .sb rs2 imm rs1  => (s.setMem (s.mem.store (s.addr imm rs1) 1 (s.reg rs2))).next
  | .jalr rd rs1 imm => (s.setReg rd (s.pc + 4)).jump ((s.reg rs1 + imm.signExtend 32) &&& ~~~1)

def run (s : State) (code : List Instr) : State :=
  code.foldl exec s

@[simp] theorem run_nil : s.run [] = s := (rfl)
@[simp] theorem run_cons : s.run (i :: code) = (s.exec i).run code := (rfl)

@[simp] theorem run_append : s.run (c₁ ++ c₂) = (s.run c₁).run c₂ := by
  simp [run]

end State
end Rv32
