import Ysyx.Rv32.Basic

-- The assembler macros of inst-replace.h. Every definition is the expansion of the macro of the same
-- name: the conditionals of the assembler are decided on the register numbers and immediates, what
-- remains is a list of base instructions. Labels are given by their addresses.

open Rv32

namespace InstReplace

@[simp] abbrev x0 : Reg := 0
@[simp] abbrev sp : Reg := 2
@[simp] abbrev gp : Reg := 3
@[simp] abbrev tp : Reg := 4
@[simp] abbrev s0 : Reg := 8
@[simp] abbrev s1 : Reg := 9

-- The operand `off(base)` of a load or store.
structure Addr where
  off  : Int
  base : Reg

-- The operand `k + off(base)`.
def Addr.plus (k : Int) (a : Addr) : Addr :=
  { a with off := k + a.off }

def lw (r : Reg) (a : Addr) : Instr :=
  .lw r (BitVec.ofInt 12 a.off) a.base

def lbu (r : Reg) (a : Addr) : Instr :=
  .lbu r (BitVec.ofInt 12 a.off) a.base

def sw (r : Reg) (a : Addr) : Instr :=
  .sw r (BitVec.ofInt 12 a.off) a.base

def sb (r : Reg) (a : Addr) : Instr :=
  .sb r (BitVec.ofInt 12 a.off) a.base

-- The operand `(base)`.
def at0 (base : Reg) : Addr :=
  ⟨0, base⟩

def spVarByte (n : Fin 8) (boffset : Fin 4) : Addr :=
  ⟨-n * 4 + boffset, sp⟩

def spVar (n : Fin 8) : Addr :=
  spVarByte n 0

@[simp] abbrev varA : Fin 8 := 4
@[simp] abbrev varB : Fin 8 := 5
@[simp] abbrev varC : Fin 8 := 6
@[simp] abbrev varD : Fin 8 := 7

def push (r : Reg) (n : Fin 8) : Instr :=
  sw r (spVar n)

def pop (r : Reg) (n : Fin 8) : Instr :=
  lw r (spVar n)

-- The addresses at which the linker has placed the objects of the header.
structure Symbols where
  sameResultTable : Word
  check8bit0Table : Word
  slt1Table       : Word
  sltu1Table      : Word
  or1Table        : Word
  logicShiftTable : Word
  checkSameArray  : Word

namespace Symbols

variable (sym : Symbols)

def and8Table : Word := sym.logicShiftTable
def or8Table  : Word := sym.and8Table + 256 * 256
def xor8Table : Word := sym.or8Table + 256 * 256
def sll8Table : Word := sym.xor8Table + 256 * 256
def srl8Table : Word := sym.sll8Table + 32 * 256 * 4
def sra8Table : Word := sym.srl8Table + 32 * 256 * 4

end Symbols

def mv (rd rs : Reg) : Instr :=
  .addi rd rs 0

def li (rd : Reg) (imm : BitVec 12) : Instr :=
  .addi rd x0 imm

def jr (rs : Reg) : Instr :=
  .jalr x0 rs 0

-- The relocations `%hi` and `%lo`.
def hi (addr : Word) : BitVec 20 :=
  (addr + 0x800).extractLsb' 12 20

def lo (addr : Word) : BitVec 12 :=
  addr.setWidth 12

def la (r : Reg) (addr : Word) : List Instr :=
  [.lui r (hi addr), .addi r r (lo addr)]

variable (sym : Symbols)

protected def not (rd rs1 : Reg) : List Instr :=
  [push gp 3, sw rs1 (spVar varC)] ++ la tp (sym.xor8Table + BitVec.ofNat 32 (0xff <<< 8)) ++
  [lbu gp (spVarByte varC 3), .add gp gp tp, lbu gp (at0 gp), sb gp (spVarByte varD 3)] ++
  [lbu gp (spVarByte varC 2), .add gp gp tp, lbu gp (at0 gp), sb gp (spVarByte varD 2)] ++
  [lbu gp (spVarByte varC 1), .add gp gp tp, lbu gp (at0 gp), sb gp (spVarByte varD 1)] ++
  [lbu gp (spVarByte varC 0), .add gp gp tp, lbu gp (at0 gp), sb gp (spVarByte varD 0)] ++
  [pop gp 3, lw rd (spVar varD)]

protected def sub (rd rs1 rs2 : Reg) : List Instr :=
  InstReplace.not sym tp rs2 ++ [.add rd rs1 tp, .addi rd rd 1]

def getbyte (rd rs1 : Reg) (byte : Fin 4) : List Instr :=
  [sw rs1 (spVar varC), lbu rd (spVarByte varC byte)]

def sh (rs : Reg) (addr : Addr) : List Instr :=
  [sb rs (addr.plus 0)] ++ getbyte tp rs 1 ++ [sb tp (addr.plus 1)]

def slli (rd rs1 : Reg) (imm : Nat) : List Instr :=
  if imm = 0 then
    if rd ≠ rs1 then [mv rd rs1] else []
  else if 24 ≤ imm then
    [sw x0 (spVar varA), sb rs1 (spVarByte varA 3), lw rd (spVar varA)] ++ slli rd rd (imm - 24)
  else if 16 ≤ imm then
    [sw x0 (spVar varA)] ++ sh rs1 (spVarByte varA 2) ++ [lw rd (spVar varA)] ++ slli rd rd (imm - 16)
  else
    .add rd rs1 rs1 :: List.replicate (imm - 1) (.add rd rd rd)

def msb (rd rs1 : Reg) : List Instr :=
  getbyte rd rs1 3 ++ slli rd rd 1 ++ getbyte rd rd 1

def sltTemplate (lut : Word) (rd rs1 rs2 : Reg) : List Instr :=
  [push s0 1, push s1 2, sw rs2 (spVar varA), mv s0 rs1, lw s1 (spVar varA)] ++
  msb gp s0 ++ slli gp gp 1 ++
  msb tp s1 ++ [.add gp gp tp] ++ slli gp gp 1 ++
  InstReplace.sub sym tp s0 s1 ++ msb tp tp ++ [.add gp gp tp] ++
  la tp lut ++ [.add tp tp gp] ++
  [pop s1 2, pop s0 1] ++
  [lbu rd (at0 tp)]

def slt (rd rs1 rs2 : Reg) : List Instr :=
  sltTemplate sym sym.slt1Table rd rs1 rs2

def sltu (rd rs1 rs2 : Reg) : List Instr :=
  sltTemplate sym sym.sltu1Table rd rs1 rs2

def slti (rd rs1 : Reg) (imm : BitVec 12) : List Instr :=
  [li tp imm] ++ slt sym rd rs1 tp

def sltiu (rd rs1 : Reg) (imm : BitVec 12) : List Instr :=
  [li tp imm] ++ sltu sym rd rs1 tp

def logic8ByteInternal (lutReg : Reg) (boffset : Fin 4) : List Instr :=
  [lbu tp (spVarByte varA boffset), sb tp (spVarByte varD 1)] ++
  [lbu tp (spVarByte varB boffset), sb tp (spVarByte varD 0)] ++
  [lw tp (spVar varD), .add tp lutReg tp, lbu tp (at0 tp), sb tp (spVarByte varC boffset)]

-- There is no expansion where the macro runs into `.abort`.
def logic (lut : Word) (rd rs1 rs2 : Reg) : Option (List Instr) :=
  if rd = x0 then some []
  else if rd = sp ∨ rs1 = sp ∨ rs2 = sp then none
  else if rd = gp ∨ rs1 = gp ∨ rs2 = gp then none
  else if rd = tp ∨ rs1 = tp then none
  else some <|
    [sw rs1 (spVar varA), sw rs2 (spVar varB)] ++ la rd lut ++ [sw x0 (spVar varD)] ++
    logic8ByteInternal rd 3 ++
    logic8ByteInternal rd 2 ++
    logic8ByteInternal rd 1 ++
    logic8ByteInternal rd 0 ++
    [lw rd (spVar varC)]

protected def and (rd rs1 rs2 : Reg) : Option (List Instr) :=
  logic sym.and8Table rd rs1 rs2

protected def or (rd rs1 rs2 : Reg) : Option (List Instr) :=
  logic sym.or8Table rd rs1 rs2

protected def xor (rd rs1 rs2 : Reg) : Option (List Instr) :=
  logic sym.xor8Table rd rs1 rs2

-- The macros that `def_itype` defines for them.
def andi (rd rs1 : Reg) (imm : BitVec 12) : Option (List Instr) :=
  (InstReplace.and sym rd rs1 tp).map ([li tp imm] ++ ·)

def ori (rd rs1 : Reg) (imm : BitVec 12) : Option (List Instr) :=
  (InstReplace.or sym rd rs1 tp).map ([li tp imm] ++ ·)

def xori (rd rs1 : Reg) (imm : BitVec 12) : Option (List Instr) :=
  (InstReplace.xor sym rd rs1 tp).map ([li tp imm] ++ ·)

def check8bitSame (table rd : Reg) (boffset : Fin 4) : List Instr :=
  [lbu rd (spVarByte varA boffset), .add tp table rd, .addi rd x0 1, sb rd (at0 tp)] ++
  [lbu rd (spVarByte varB boffset), .add rd table rd, sb x0 (at0 rd)] ++
  [lbu rd (at0 tp)]

def seq (rd rs1 rs2 : Reg) : List Instr :=
  [sw rs1 (spVar varA), sw rs2 (spVar varB), push s0 1, push s1 2] ++
  la s0 sym.checkSameArray ++
  check8bitSame s0 gp 0 ++
  check8bitSame s0 s1 1 ++ [.add gp gp s1] ++
  check8bitSame s0 s1 2 ++ [.add gp gp s1] ++
  check8bitSame s0 s1 3 ++ [.add gp gp s1] ++
  la tp sym.sameResultTable ++ [.add tp tp gp, lbu rd (at0 tp)] ++
  [pop s1 2, pop s0 1]

def check8bit0 (table rd : Reg) (boffset : Fin 4) : List Instr :=
  [lbu rd (spVarByte varA boffset), .add rd table rd, lbu rd (at0 rd)]

def seqz (rd rs1 : Reg) : List Instr :=
  [sw rs1 (spVar varA), push s0 1] ++
  la s0 sym.check8bit0Table ++
  check8bit0 s0 gp 0 ++
  check8bit0 s0 tp 1 ++ [.add gp gp tp] ++
  check8bit0 s0 tp 2 ++ [.add gp gp tp] ++
  check8bit0 s0 tp 3 ++ [.add gp gp tp] ++
  la tp sym.sameResultTable ++ [.add tp tp gp, lbu rd (at0 tp)] ++
  [pop s0 1]

-- The parameter `label` is the address of the label `non_taken_..` at the end of the expansion.
def branchResolve (target : Word) (isTpHighSelTarget : Bool) (label : Word) : List Instr :=
  slli tp tp 2 ++ [.add tp sp tp] ++
  (if isTpHighSelTarget then
    la gp target ++ [sw gp (spVar varA)] ++ la gp label ++ [sw gp (spVar varB)]
  else
    la gp label ++ [sw gp (spVar varA)] ++ la gp target ++ [sw gp (spVar varB)]) ++
  [lw tp ⟨-varB * 4, tp⟩, jr tp]

def beq (rs1 rs2 : Reg) (target label : Word) : List Instr :=
  if rs2 = x0 then seqz sym tp rs1 ++ branchResolve target true label
  else if rs1 = x0 then beq rs2 rs1 target label
  else seq sym tp rs1 rs2 ++ branchResolve target true label
termination_by if rs2 = x0 then 0 else 1
decreasing_by simp_all

def bne (rs1 rs2 : Reg) (target label : Word) : List Instr :=
  if rs2 = x0 then seqz sym tp rs1 ++ branchResolve target false label
  else if rs1 = x0 then bne rs2 rs1 target label
  else seq sym tp rs1 rs2 ++ branchResolve target false label
termination_by if rs2 = x0 then 0 else 1
decreasing_by simp_all

-- tp = 0 exactly if rs2 > 0
def checkNonPositive (rs2 : Reg) : List Instr :=
  msb gp rs2 ++ [.addi tp rs2 (-1)] ++ msb tp tp ++ [.add gp gp tp] ++
  la tp sym.or1Table ++ [.add tp gp tp, lbu tp (at0 tp)]

def blt (rs1 rs2 : Reg) (target label : Word) : List Instr :=
  if rs2 = x0 then msb tp rs1 ++ branchResolve target true label
  else if rs1 = x0 then checkNonPositive sym rs2 ++ branchResolve target false label
  else slt sym tp rs1 rs2 ++ branchResolve target true label

def bltu (rs1 rs2 : Reg) (target label : Word) : List Instr :=
  sltu sym tp rs1 rs2 ++ branchResolve target true label

def bge (rs1 rs2 : Reg) (target label : Word) : List Instr :=
  if rs1 = x0 then checkNonPositive sym rs2 ++ branchResolve target true label
  else slt sym tp rs1 rs2 ++ branchResolve target false label

def bgeu (rs1 rs2 : Reg) (target label : Word) : List Instr :=
  sltu sym tp rs1 rs2 ++ branchResolve target false label

def getshamt (rd rs1 : Reg) : List Instr :=
  [sb rs1 (spVarByte varB 0), lbu rd (spVarByte varB 0)] ++
  la tp (sym.and8Table + BitVec.ofNat 32 (0x1f <<< 8)) ++ [.add rd rd tp, lbu rd (at0 rd)]

def getShiftByteInTp (base : Reg) (boffset : Fin 4) : List Instr :=
  [lbu tp (spVarByte varA boffset)] ++ slli tp tp 2 ++ [.add tp base tp, lw tp (at0 tp)]

def sll (rd rs1 rs2 : Reg) : List Instr :=
  [push s0 1, sw rs1 (spVar varA)] ++ getshamt sym s0 rs2 ++
  [sw x0 (spVar varB), sb s0 (spVarByte varB 1), lw s0 (spVar varB)] ++ slli s0 s0 2 ++
  la tp sym.sll8Table ++ [.add s0 s0 tp] ++
  [sw x0 (spVar varB)] ++
  getShiftByteInTp s0 3 ++ [sb tp (spVarByte varB 3), lw gp (spVar varB)] ++
  getShiftByteInTp s0 2 ++ sh tp (spVarByte varB 2) ++ [lw tp (spVar varB), .add gp gp tp] ++
  getShiftByteInTp s0 1 ++ slli tp tp 8 ++ [.add gp gp tp] ++
  getShiftByteInTp s0 0 ++
  [pop s0 1, .add rd gp tp]

-- The parameter `rs2` of the macro is a register or, if `is_rs2_imm` is 1, an immediate.
inductive ShiftAmount
  | reg (rs2 : Reg)
  | imm (n : Nat)

-- Leaves the address of the table row for the amount in s0.
def shiftRow : ShiftAmount → List Instr
  | .reg rs2 =>
    getshamt sym s0 rs2 ++
    [sw x0 (spVar varB), sb s0 (spVarByte varB 1), lw s0 (spVar varB)] ++ slli s0 s0 2 ++
    la tp sym.srl8Table ++ [.add s0 s0 tp]
  | .imm n => la s0 (sym.srl8Table + BitVec.ofNat 32 (n <<< 10))

def shiftRightTemplate (rd rs1 : Reg) (rs2 : ShiftAmount) (isArith : Bool) : List Instr :=
  match rs2 with
  | .imm 24 =>
    if isArith then
      [sw rs1 (spVar varA)] ++ la tp (sym.sra8Table + BitVec.ofNat 32 (24 <<< 10)) ++
      [lbu rd (spVarByte varA 3)] ++ slli rd rd 2 ++ [.add tp tp rd, lw rd (at0 tp)]
    else
      getbyte rd rs1 3
  | rs2 =>
    [push s0 1, sw rs1 (spVar varA)] ++ shiftRow sym rs2 ++
    getShiftByteInTp s0 2 ++ [sw tp (spVar varB)] ++
    getShiftByteInTp s0 1 ++ [sw tp (spVar varC)] ++
    getShiftByteInTp s0 0 ++ [sw tp (spVar varD)] ++
    -- byte 0
    [lbu gp (spVarByte varB 1), lbu tp (spVarByte varC 2), .add gp gp tp,
     lbu tp (spVarByte varD 3), .add gp gp tp, sw gp (spVar varD)] ++
    -- byte 1
    [lbu gp (spVarByte varB 2), lbu tp (spVarByte varC 3), .add gp gp tp, sb gp (spVarByte varD 1)] ++
    -- byte 2
    [lbu gp (spVarByte varB 3), sb gp (spVarByte varD 2)] ++
    [lw gp (spVar varD)] ++
    (if isArith then la tp (sym.sra8Table - sym.srl8Table) ++ [.add s0 s0 tp] else []) ++
    getShiftByteInTp s0 3 ++
    [pop s0 1, .add rd gp tp]

def srl (rd rs1 rs2 : Reg) : List Instr :=
  shiftRightTemplate sym rd rs1 (.reg rs2) false

def sra (rd rs1 rs2 : Reg) : List Instr :=
  shiftRightTemplate sym rd rs1 (.reg rs2) true

def srli (rd rs1 : Reg) (imm : Nat) : List Instr :=
  shiftRightTemplate sym rd rs1 (.imm imm) false

def srai (rd rs1 : Reg) (imm : Nat) : List Instr :=
  shiftRightTemplate sym rd rs1 (.imm imm) true

def lb (rd : Reg) (addr : Addr) : List Instr :=
  [sw x0 (spVar varA), lbu rd addr, sb rd (spVarByte varA 3), lw rd (spVar varA)] ++ srai sym rd rd 24

def lhu (rd : Reg) (addr : Addr) : List Instr :=
  [sw x0 (spVar varA), lbu tp (addr.plus 1), sb tp (spVarByte varA 1), lw tp (spVar varA)] ++
  [lbu rd (addr.plus 0), .add rd rd tp]

def lh (rd : Reg) (addr : Addr) : List Instr :=
  [sw x0 (spVar varA), lbu gp (addr.plus 1), sb gp (spVarByte varA 3), lw gp (spVar varA)] ++
  srai sym gp gp 16 ++
  [lbu rd (addr.plus 0), .add rd rd gp]

end InstReplace
