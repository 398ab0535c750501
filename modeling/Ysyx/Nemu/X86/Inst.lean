import Ysyx.Nemu.X86.Reg

-- The decoding of ModR/M operands.

namespace Nemu.X86

-- `inst` has the bytes that have been fetched, if instructions are traced.
structure Decode where
  pc   : Word
  snpc : Word
  dnpc : Word
  inst : Nat → Byte

structure Machine (D : Type) extends State D where
  cpu : CPU_state

-- `ITRACE` stands for `CONFIG_ITRACE` or `CONFIG_IQUEUE`.
structure System (D : Type) extends Env D where
  ITRACE : Bool

abbrev Exec (D : Type) := EStateM Stop (Machine D)

-- The bit-fields of a ModR/M byte and of a SIB byte.

namespace ModR_M

def R_M (val : Byte) : Int := (val.extractLsb' 0 3).toNat
def reg (val : Byte) : Int := (val.extractLsb' 3 3).toNat
def mod (val : Byte) : Int := (val.extractLsb' 6 2).toNat

end ModR_M

namespace SIB

def base (val : Byte) : Int := (val.extractLsb' 0 3).toNat
def index (val : Byte) : Int := (val.extractLsb' 3 3).toNat
def ss (val : Byte) : Nat := (val.extractLsb' 6 2).toNat

end SIB

variable {D α : Type}

def access (x : M D α) : Exec D α := fun m =>
  match x m.toState with
  | .ok v s    => .ok v { m with toState := s }
  | .error e s => .error e { m with toState := s }

-- An expression in which an assertion may fail.
def value (x : CPU_state → Option α) : Exec D α := do
  match x (← get).cpu with
  | some v => return v
  | none   => throw .assertion

namespace System

variable (sys : System D)

def inst_fetch (pc : Word) (len : Nat) : Exec D (Word × Word) := do
  let inst ← access <| sys.paddr_read pc len
  return (inst, pc + BitVec.ofNat 32 len)

-- `p[i] = ret & 0xff; ret >>= 8` for `len` bytes.
def record (inst : Nat → Byte) (p len : Nat) (ret : Word) : Nat → Byte :=
  fun i => if p ≤ i ∧ i < p + len then ret.byte (i - p) else inst i

def x86_inst_fetch (s : Decode) (len : Nat) : Exec D (Word × Decode) := do
  let p := (s.snpc - s.pc).toNat
  let (ret, snpc) ← sys.inst_fetch s.snpc len
  if sys.ITRACE then
    if ¬(snpc - s.pc).toNat < 16 then throw .assertion
    return (ret, { s with snpc, inst := record s.inst p len ret })
  else
    return (ret, { s with snpc })

-- Registers that form an address; -1 stands for no register.
structure Regs where
  base_reg  : Int
  index_reg : Int
  scale     : Nat

-- The parts of `load_addr`: registers, displacement and sum.

def load_regs (s : Decode) (m : Byte) : Exec D (Regs × Decode) := do
  if ModR_M.R_M m = R_ESP then
    let (val, s) ← sys.x86_inst_fetch s 1
    let sib : Byte := val.setWidth 8
    let index_reg := if SIB.index sib ≠ R_ESP then SIB.index sib else -1
    return ({ base_reg := SIB.base sib, index_reg, scale := SIB.ss sib }, s)
  else
    return ({ base_reg := ModR_M.R_M m, index_reg := -1, scale := 0 }, s)

-- The base register and `disp_size`.
def displacement (m : Byte) (base_reg : Int) : Int × Nat :=
  if ModR_M.mod m = 0 then
    if base_reg = R_EBP then (-1, 4) else (base_reg, 0)
  else if ModR_M.mod m = 1 then
    (base_reg, 1)
  else
    (base_reg, 4)

def load_disp (s : Decode) (disp_size : Nat) : Exec D (Word × Decode) := do
  if disp_size ≠ 0 then
    let (disp, s) ← sys.x86_inst_fetch s disp_size
    return (if disp_size = 1 then (disp.setWidth 8).signExtend 32 else disp, s)
  else
    return (0, s)

def addend (reg : Int) (scale : Nat) : Exec D Word := do
  if reg ≠ -1 then
    return (← value (·.reg_l sys.toConfig reg)) <<< scale
  else
    return 0

-- The result is the address.
def load_addr (s : Decode) (m : Byte) : Exec D (Word × Decode) := do
  if ¬ModR_M.mod m ≠ 3 then throw .assertion
  let (regs, s) ← sys.load_regs s m
  let (base_reg, disp_size) := displacement m regs.base_reg
  let (disp, s) ← sys.load_disp s disp_size
  let base ← sys.addend base_reg 0
  let index ← sys.addend regs.index_reg regs.scale
  return (disp + base + index, s)

-- What `decode_rm` finds. The address stays what it was if the operand is a register.
structure Operand where
  rm_reg  : Int
  rm_addr : Word
  reg     : Int

def decode_rm (s : Decode) (rm_addr : Word) : Exec D (Operand × Decode) := do
  let (val, s) ← sys.x86_inst_fetch s 1
  let m : Byte := val.setWidth 8
  let reg := ModR_M.reg m
  if ModR_M.mod m = 3 then
    return ({ rm_reg := ModR_M.R_M m, rm_addr, reg }, s)
  else
    let (rm_addr, s) ← sys.load_addr s m
    return ({ rm_reg := -1, rm_addr, reg }, s)

end System
end Nemu.X86
