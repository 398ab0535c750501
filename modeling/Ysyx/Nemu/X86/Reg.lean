import Ysyx.Nemu.Memory

-- The registers of the x86 port.

namespace Nemu.X86

structure Gpr where
  _32 : Word
  _16 : BitVec 16
  _8  : Fin 2 → Byte

-- The program counter is kept with the memory.
structure CPU_state where
  gpr : Fin 8 → Gpr
  eax : Word
  ecx : Word
  edx : Word
  ebx : Word
  esp : Word
  ebp : Word
  esi : Word
  edi : Word

-- The registers of a program that has just been started.
def CPU_state.zero : CPU_state :=
  ⟨fun _ => ⟨0, 0, fun _ => 0⟩, 0, 0, 0, 0, 0, 0, 0, 0⟩

abbrev R_ESP : Int := 4
abbrev R_EBP : Int := 5

-- Without the check an index from 0 to 7 is expected.
def check_reg_index (cfg : Config) (index : Int) : Option (Fin 8) :=
  if cfg.RT_CHECK ∧ ¬(0 ≤ index ∧ index < 8) then none else some (Fin.ofNat 8 index.toNat)

namespace CPU_state

variable (cfg : Config) (cpu : CPU_state)

-- `reg_l(index)`, `reg_w(index)` and `reg_b(index)` as values.

def reg_l (index : Int) : Option Word := do
  return (cpu.gpr (← check_reg_index cfg index))._32

def reg_w (index : Int) : Option (BitVec 16) := do
  return (cpu.gpr (← check_reg_index cfg index))._16

def reg_b (index : Int) : Option Byte := do
  let i ← check_reg_index cfg index
  return (cpu.gpr (Fin.ofNat 8 (i &&& 3)))._8 (Fin.ofNat 2 (i >>> 2))

-- The assignments to them.

def setGpr (i : Fin 8) (g : Gpr) : CPU_state :=
  { cpu with gpr := Function.update cpu.gpr i g }

def assign_l (index : Int) (data : Word) : Option CPU_state := do
  let i ← check_reg_index cfg index
  return cpu.setGpr i { cpu.gpr i with _32 := data }

def assign_w (index : Int) (data : BitVec 16) : Option CPU_state := do
  let i ← check_reg_index cfg index
  return cpu.setGpr i { cpu.gpr i with _16 := data }

def assign_b (index : Int) (data : Byte) : Option CPU_state := do
  let i ← check_reg_index cfg index
  let j := Fin.ofNat 8 (i &&& 3)
  return cpu.setGpr j { cpu.gpr j with _8 := Function.update (cpu.gpr j)._8 (Fin.ofNat 2 (i >>> 2)) data }

-- The result is `none` where an assertion fails.
def reg_read (idx : Int) (width : Nat) : Option Word :=
  match width with
  | 4 => cpu.reg_l cfg idx
  | 1 => (cpu.reg_b cfg idx).map (·.setWidth 32)
  | 2 => (cpu.reg_w cfg idx).map (·.setWidth 32)
  | _ => none

def reg_write (idx : Int) (width : Nat) (data : Word) : Option CPU_state :=
  match width with
  | 4 => cpu.assign_l cfg idx data
  | 1 => cpu.assign_b cfg idx (data.setWidth 8)
  | 2 => cpu.assign_w cfg idx (data.setWidth 16)
  | _ => none

end CPU_state
end Nemu.X86
