import Ysyx.Nemu.Cpu
import Ysyx.Nemu.Pattern

-- The decoding and the execution of riscv32 instructions.

namespace Nemu

def BITMASK (bits : Nat) : BitVec 64 :=
  1 <<< bits - 1

def BITS (x : Word) (hi lo : Nat) : BitVec 64 :=
  (x >>> lo).setWidth 64 &&& BITMASK (hi - lo + 1)

-- The value of a bit-field of type `int64_t` with `len` bits.
def SEXT (x : BitVec 64) (len : Nat) : BitVec 64 :=
  (x.setWidth len).signExtend 64

namespace Riscv32

structure Decode where
  pc   : Word
  snpc : Word
  dnpc : Word
  inst : Word

inductive InstType
  | TYPE_I
  | TYPE_U
  | TYPE_S
  | TYPE_N

-- What `decode_operand` finds. The operands that a type does not have stay 0.
structure Operands where
  rd   : Nat
  src1 : Word := 0
  src2 : Word := 0
  imm  : Word := 0

def immI (i : Word) : Word :=
  (SEXT (BITS i 31 20) 12).setWidth 32

def immU (i : Word) : Word :=
  (SEXT (BITS i 31 12) 20 <<< 12).setWidth 32

def immS (i : Word) : Word :=
  (SEXT (BITS i 31 25) 7 <<< 5 ||| BITS i 11 7).setWidth 32

variable {D R : Type}

def check_reg_idx (cfg : Config) (idx : Nat) : Exec D R (BitVec 5) :=
  if cfg.RT_CHECK ∧ ¬idx < 32 then throw <| .stop .assertion else return .ofNat 5 idx

-- `R(i)` as a value, and as the left side of an assignment.

def gpr (cfg : Config) (idx : Nat) : Exec D R Word := do
  let idx ← check_reg_idx cfg idx
  return (← get).gpr idx

def assignGpr (cfg : Config) (idx : Nat) (v : Word) : Exec D R Unit := do
  setGpr (← check_reg_idx cfg idx) v

def decode_operand (cfg : Config) (s : Decode) (type : InstType) : Exec D R Operands := do
  let i := s.inst
  let rs1 := (BITS i 19 15).toNat
  let rs2 := (BITS i 24 20).toNat
  let rd := (BITS i 11 7).toNat
  match type with
  | .TYPE_I => return { rd, src1 := ← gpr cfg rs1, imm := immI i }
  | .TYPE_U => return { rd, imm := immU i }
  | .TYPE_S => return { rd, src1 := ← gpr cfg rs1, src2 := ← gpr cfg rs2, imm := immS i }
  | .TYPE_N => return { rd }

-- A line of `decode_exec`.
structure InstPat (D R : Type) where
  pattern : String
  type    : InstType
  body    : Decode → Operands → Exec D R Unit

variable (sys : System D R)

def instpats : List (InstPat D R) := [
  { pattern := "??????? ????? ????? ??? ????? 00101 11", type := .TYPE_U
    body s o := assignGpr sys.toConfig o.rd (s.pc + o.imm) },
  { pattern := "??????? ????? ????? 100 ????? 00000 11", type := .TYPE_I
    body _ o := do assignGpr sys.toConfig o.rd (← access <| sys.vaddr_read (o.src1 + o.imm) 1) },
  { pattern := "??????? ????? ????? 000 ????? 01000 11", type := .TYPE_S
    body _ o := access <| sys.vaddr_write (o.src1 + o.imm) 1 o.src2 },
  { pattern := "0000000 00001 00000 000 00000 11100 11", type := .TYPE_N
    body s _ := do set_nemu_state sys.toConfig NEMU_END s.pc (← gpr sys.toConfig 10) },
  { pattern := "??????? ????? ????? ??? ????? ????? ??", type := .TYPE_N
    body s _ := sys.invalid_inst s.pc }]

def instpat (s : Decode) : List (InstPat D R) → Exec D R Unit
  | [] => return
  | p :: ps =>
    match pattern_decode p.pattern.toList p.pattern.length with
    | .error _ => throw <| .stop .assertion
    | .ok d =>
      if d.test (s.inst.setWidth 64) then do
        let o ← decode_operand sys.toConfig s p.type
        p.body s o
      else
        instpat s ps

def decode_exec (s : Decode) : Exec D R Decode := do
  let s := { s with dnpc := s.snpc }
  instpat sys s (instpats sys)
  assignGpr sys.toConfig 0 0
  return s

def isa_exec_once (s : Decode) : Exec D R Decode := do
  let inst ← access <| sys.vaddr_ifetch s.snpc 4
  decode_exec sys { s with snpc := s.snpc + 4, inst }

def exec_once (s : Decode) (pc : Word) : Exec D R Decode := do
  let s ← isa_exec_once sys { s with pc, snpc := pc }
  modify fun m => { m with pc := s.dnpc }
  return s

end Riscv32
end Nemu
