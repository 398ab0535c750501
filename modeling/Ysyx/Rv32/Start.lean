import Ysyx.Rv32.Encode

-- The instructions that a first program needs: addresses relative to the program, bytes of memory, and its end.

namespace Rv32

open BitVec

inductive Start
  | auipc (rd : Reg) (imm : BitVec 20)
  | lbu (rd : Reg) (imm : BitVec 12) (rs1 : Reg)
  | sb (rs2 : Reg) (imm : BitVec 12) (rs1 : Reg)
  | ebreak
  deriving DecidableEq, Repr

namespace Start

def encode : Start → Word
  | auipc rd imm   => imm ++ rd.bits ++ 0b0010111#7
  | lbu rd imm rs1 => (Instr.lbu rd imm rs1).encode
  | sb rs2 imm rs1 => (Instr.sb rs2 imm rs1).encode
  | ebreak         => 0b000000000001#12 ++ 0b00000#5 ++ 0b000#3 ++ 0b00000#5 ++ 0b1110011#7

-- Behind `ebreak` the program could go on.
def exec (s : State) : Start → State
  | auipc rd imm   => (s.setReg rd (s.pc + (imm ++ 0#12))).next
  | lbu rd imm rs1 => s.exec (.lbu rd imm rs1)
  | sb rs2 imm rs1 => s.exec (.sb rs2 imm rs1)
  | ebreak         => s.next

-- The address of the byte that the instruction reads or writes.
def access (s : State) : Start → Option Word
  | lbu _ imm rs1 | sb _ imm rs1 => some (s.addr imm rs1)
  | auipc .. | ebreak            => none

end Start

end Rv32
