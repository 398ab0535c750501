import Ysyx.Minirv.Replace
import Ysyx.Rv32.Asm

-- Whole programs under inst-replace.h: each line is expanded by the macro of its instruction, and the expansions
-- follow each other.

open Rv32
open Rv32.Asm (Line)

namespace InstReplace

def j (addr : Word) : List Instr :=
  la tp addr ++ [.jalr x0 tp 0]

def callTemplate (r : Reg) (addr : Word) : List Instr :=
  la r addr ++ [.jalr r r 0]

def jal (rd : Reg) (addr : Word) : List Instr :=
  if rd = x0 then j addr else callTemplate rd addr

-- The macros that access halfwords add 1 to the offset, which then has to fit into an immediate.
def halfword (imm : BitVec 12) (code : List Instr) : Option (List Instr) :=
  if imm.toInt + 1 < 2048 then some code else none

section Expand

variable (sym : Symbols) (rd rs1 rs2 : Reg) (imm : BitVec 12)

def expandOp : Asm.Alu → Option (List Instr)
  | .add  => some [.add rd rs1 rs2]
  | .sub  => some <| InstReplace.sub sym rd rs1 rs2
  | .sll  => some <| sll sym rd rs1 rs2
  | .slt  => some <| slt sym rd rs1 rs2
  | .sltu => some <| sltu sym rd rs1 rs2
  | .xor  => InstReplace.xor sym rd rs1 rs2
  | .srl  => some <| srl sym rd rs1 rs2
  | .sra  => some <| sra sym rd rs1 rs2
  | .or   => InstReplace.or sym rd rs1 rs2
  | .and  => InstReplace.and sym rd rs1 rs2

def expandOpImm : Asm.AluImm → Option (List Instr)
  | .addi  => some [.addi rd rs1 imm]
  | .slti  => some <| slti sym rd rs1 imm
  | .sltiu => some <| sltiu sym rd rs1 imm
  | .xori  => xori sym rd rs1 imm
  | .ori   => ori sym rd rs1 imm
  | .andi  => andi sym rd rs1 imm

def expandShift (shamt : BitVec 5) : Asm.Shift → List Instr
  | .slli => slli rd rs1 shamt.toNat
  | .srli => srli sym rd rs1 shamt.toNat
  | .srai => srai sym rd rs1 shamt.toNat

def expandLoad : Asm.Load → Option (List Instr)
  | .lw  => some [.lw rd imm rs1]
  | .lbu => some [.lbu rd imm rs1]
  | .lb  => some <| lb sym rd ⟨imm.toInt, rs1⟩
  | .lhu => halfword imm <| lhu rd ⟨imm.toInt, rs1⟩
  | .lh  => halfword imm <| lh sym rd ⟨imm.toInt, rs1⟩

def expandStore : Asm.Store → Option (List Instr)
  | .sw => some [.sw rs2 imm rs1]
  | .sb => some [.sb rs2 imm rs1]
  | .sh => halfword imm <| sh rs2 ⟨imm.toInt, rs1⟩

def expandBranch (target label : Word) : Asm.Cond → List Instr
  | .eq  => beq sym rs1 rs2 target label
  | .ne  => bne sym rs1 rs2 target label
  | .lt  => blt sym rs1 rs2 target label
  | .ge  => bge sym rs1 rs2 target label
  | .ltu => bltu sym rs1 rs2 target label
  | .geu => bgeu sym rs1 rs2 target label

end Expand

variable (sym : Symbols)

-- Line `i` is placed at `addr i`. There is no expansion where the assembler reports an error.
def expand (addr : Nat → Word) (i : Nat) : Line Nat → Option (List Instr)
  | .op f rd rs1 rs2      => expandOp sym rd rs1 rs2 f
  | .opImm f rd rs1 imm   => expandOpImm sym rd rs1 imm f
  | .shift f rd rs1 shamt => some <| expandShift sym rd rs1 shamt f
  | .lui rd imm           => some [.lui rd imm]
  | .load f rd imm rs1    => expandLoad sym rd rs1 imm f
  | .store f rs2 imm rs1  => expandStore rs1 rs2 imm f
  | .branch c rs1 rs2 t   => some <| expandBranch sym rs1 rs2 (addr t) (addr (i + 1)) c
  | .jal rd t             => some <| jal rd (addr t)
  | .jalr rd rs1 imm      => some [.jalr rd rs1 imm]

-- The number of instructions of a line, which does not depend on the addresses.
def size (l : Line Nat) : Nat :=
  ((expand sym (fun _ => 0) 0 l).getD []).length

def offset (p : List (Line Nat)) (i : Nat) : Nat :=
  ((p.take i).map (size sym)).sum

-- The first pass of the assembler finds the addresses, the second one expands the lines.

def layout (base : Word) (p : List (Line Nat)) (i : Nat) : Word :=
  base + BitVec.ofNat 32 (4 * offset sym p i)

def expandLines (addr : Nat → Word) : Nat → List (Line Nat) → Option (List Instr)
  | _, []     => some []
  | i, l :: p => (expand sym addr i l).bind fun code => (expandLines addr (i + 1) p).map (code ++ ·)

def compile (base : Word) (p : List (Line Nat)) : Option (List Instr) :=
  expandLines sym (layout sym base p) 0 p

end InstReplace
