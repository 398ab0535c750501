import Ysyx.Rv32.Basic

-- The machine words of the instructions, in the formats of the RISC-V specification.

namespace Rv32

open BitVec

def Reg.bits (r : Reg) : BitVec 5 :=
  BitVec.ofFin r

def Instr.encode : Instr → Word
  | .add rd rs1 rs2  => 0b0000000#7 ++ rs2.bits ++ rs1.bits ++ 0b000#3 ++ rd.bits ++ 0b0110011#7
  | .addi rd rs1 imm => imm ++ rs1.bits ++ 0b000#3 ++ rd.bits ++ 0b0010011#7
  | .lui rd imm      => imm ++ rd.bits ++ 0b0110111#7
  | .lw rd imm rs1   => imm ++ rs1.bits ++ 0b010#3 ++ rd.bits ++ 0b0000011#7
  | .lbu rd imm rs1  => imm ++ rs1.bits ++ 0b100#3 ++ rd.bits ++ 0b0000011#7
  | .sw rs2 imm rs1  =>
    imm.extractLsb' 5 7 ++ rs2.bits ++ rs1.bits ++ 0b010#3 ++ imm.extractLsb' 0 5 ++ 0b0100011#7
  | .sb rs2 imm rs1  =>
    imm.extractLsb' 5 7 ++ rs2.bits ++ rs1.bits ++ 0b000#3 ++ imm.extractLsb' 0 5 ++ 0b0100011#7
  | .jalr rd rs1 imm => imm ++ rs1.bits ++ 0b000#3 ++ rd.bits ++ 0b1100111#7

-- The memory with the code at address 0.
def assemble (code : List Instr) : Memory 32 := fun a =>
  (((code.map Instr.encode)[a.toNat / 4]?).getD 0).byte (a.toNat % 4)

-- The byte addresses that the instruction reads or writes.
def Instr.access (s : State) : Instr → Option (Word × Nat)
  | .lw _ imm rs1 | .sw _ imm rs1   => some (s.addr imm rs1, 4)
  | .lbu _ imm rs1 | .sb _ imm rs1  => some (s.addr imm rs1, 1)
  | .add .. | .addi .. | .lui .. | .jalr .. => none

-- The machine that fetches encoded instructions from `rom`. Fetches and accesses stay below `size`.
inductive Executes (rom : Memory 32) (size : Nat) : Nat → State → State → Prop
  | zero {s} : Executes rom size 0 s s
  | succ {n s s'} {i : Instr} : Executes rom size n s s' → rom.load32 s'.pc = i.encode →
    s'.pc.toNat + 4 ≤ size → (∀ a ∈ i.access s', a.fst.toNat + a.snd ≤ size) →
    Executes rom size (n + 1) s (s'.exec i)

end Rv32
