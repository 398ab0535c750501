import Ysyx.Bytes.LittleEndian
import Ysyx.Hardware.Clocked

-- The sISA processor: the emulator C_sISA and the design sCPU.

namespace SIsa

open BitVec

-- C_sISA

structure Emulator where
  PC      : Byte
  R       : Fin 4 → Byte
  printed : List (Fin 4 × Byte)

namespace Emulator

def masks : Vector Byte 6 :=
  #v[0xC0, 0x30, 0x0C, 0x03, 0x0F, 0x3C]

-- The array is only indexed by bytes below 4.
def index (i : Byte) : Fin 4 :=
  (i.setWidth 2).toFin

def setR (c : Emulator) (rd v : Byte) : Emulator :=
  { c with R := Function.update c.R (index rd) v }

-- The switch of `inst_cycle`.
def execute (inst : Byte) (c : Emulator) : Emulator :=
  match (inst &&& masks[0]) >>> 6 with
  | 0#8 =>
    let rd  := (inst &&& masks[1]) >>> 4
    let rs1 := (inst &&& masks[2]) >>> 2
    let rs2 := inst &&& masks[3]
    c.setR rd (c.R (index rs1) + c.R (index rs2))
  | 1#8 =>
    let rd := (inst &&& masks[1]) >>> 4
    let op := inst &&& masks[4]
    if op = 0 then { c with printed := c.printed ++ [(index rd, c.R (index rd))] } else c
  | 2#8 =>
    let rd  := (inst &&& masks[1]) >>> 4
    let imm := inst &&& masks[4]
    c.setR rd imm
  | 3#8 =>
    let rs2 := inst &&& masks[3]
    if c.R (index rs2) ≠ c.R 0 then { c with PC := (inst &&& masks[5]) >>> 2 } else c
  | _ => c

-- `M[PC++]` has no value beyond the 16 bytes of `M`.
def instCycle (M : Fin 16 → Byte) (c : Emulator) : Option Emulator :=
  if h : c.PC.toNat < 16 then some <| execute (M ⟨c.PC.toNat, h⟩) { c with PC := c.PC + 1 } else none

def cycles (M : Fin 16 → Byte) (c : Emulator) : Nat → Option Emulator
  | 0     => some c
  | n + 1 => cycles M c n >>= instCycle M

end Emulator

-- sCPU

structure Inst where
  en_write : Bool
  en_imm   : Bool
  en_addr  : Bool
  rd       : BitVec 2
  rs1      : BitVec 2
  rs2      : BitVec 2
  addr     : BitVec 4
  imm      : BitVec 4

def inst (inst_s : Byte) : Inst :=
  let i : Inst := {
    en_write := false
    en_imm   := false
    en_addr  := false
    rd       := inst_s.extractLsb' 4 2
    rs1      := inst_s.extractLsb' 2 2
    rs2      := inst_s.extractLsb' 0 2
    addr     := inst_s.extractLsb' 2 4
    imm      := inst_s.extractLsb' 0 4
  }
  match inst_s.extractLsb' 6 2 with
  | 0b00#2 => { i with en_write := true }
  | 0b10#2 => { i with en_write := true, en_imm := true }
  | 0b11#2 => { i with en_addr := true }
  | _      => i

structure Alu where
  need_write : Byte
  en_addr    : Bool

def alu (rs0_d rs1_d rs2_d : Byte) (imm : BitVec 4) (if_addr en_imm : Bool) : Alu where
  need_write := if en_imm then 0b0000#4 ++ imm else rs1_d + rs2_d
  en_addr    := if_addr && rs0_d != rs2_d

structure Top where
  PC       : BitVec 4
  reg_main : Fin 4 → Byte

namespace Top

-- The clocked block of `reg_s`.
def reg_s (rst en_w : Bool) (rd : BitVec 2) (need_write : Byte) (reg_main : Fin 4 → Byte) : Fin 4 → Byte :=
  if rst then fun _ => 0 else if en_w then Function.update reg_main rd.toFin need_write else reg_main

-- An edge of `clk`. The contents of `rom` are a parameter.
def edge (rom : Fin 16 → Byte) (rst : Bool) (s : Top) : Top :=
  let i := inst (rom s.PC.toFin)
  let a := alu (s.reg_main 0) (s.reg_main i.rs1.toFin) (s.reg_main i.rs2.toFin) i.imm i.en_addr i.en_imm
  { PC       := if rst then 0 else if a.en_addr then i.addr else s.PC + 1
    reg_main := reg_s rst i.en_write i.rd a.need_write s.reg_main }

-- `n` edges with `rst` low.
def edges (rom : Fin 16 → Byte) : Top → Nat → Top :=
  Clocked.run (edge rom) fun _ => false

end Top
end SIsa
