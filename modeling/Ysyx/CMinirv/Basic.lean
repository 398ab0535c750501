import Ysyx.Rv32.Basic

-- The emulators C_minirv and C_minirv_screen. They share `inst_cycle` up to the memory behind loads and
-- stores and the effect of `ebreak`, which are the parameters collected in `Bus`.

open Rv32

namespace CMinirv

-- The reasons for a call of `inst_cycle` not to return a state. An access beyond the end of an array
-- is undefined in C.
inductive Stop
  | hitGoodTrap
  | hitBadTrap
  | ecall
  | unknownInstruction (opcode pc : Word)
  | outOfRom (pc : Word)
  | outOfMemory (addr : Word) (len : Nat)
  | pcOutOfBounds
  deriving DecidableEq, Repr

structure State (M : Type) where
  register : Reg → Word
  pc       : Word
  memory   : M

structure Bus (M : Type) where
  lw     : M → Word → Except Stop Word
  lbu    : M → Word → Except Stop Byte
  sw     : M → Word → Word → Except Stop M
  sb     : M → Word → Byte → Except Stop M
  ebreak : M → Word → Except Stop M

namespace State

variable {M : Type} (s : State M)

-- The array is only indexed by words below 32.
def reg (i : Word) : Word :=
  s.register (i.setWidth 5).toFin

def setReg (i v : Word) : State M :=
  { s with register := Function.update s.register (i.setWidth 5).toFin v }

end State

-- The fields of an instruction.
def opcode (inst : Word) : Word := inst &&& 0x7f
def rd     (inst : Word) : Word := (inst >>> 7) &&& 0x1f
def funct3 (inst : Word) : Word := (inst >>> 12) &&& 0x7
def rs1    (inst : Word) : Word := (inst >>> 15) &&& 0x1f
def rs2    (inst : Word) : Word := (inst >>> 20) &&& 0x1f
def funct7 (inst : Word) : Word := (inst >>> 25) &&& 0x7f

-- `int32_t imm_32 = (imm_12 << 20) >> 20`
def imm32 (imm12 : Word) : Word := (imm12 <<< 20).sshiftRight 20

def immI (inst : Word) : Word := imm32 (inst >>> 20)
def immS (inst : Word) : Word := imm32 (((inst >>> 7) &&& 0x1f#32) ||| ((inst >>> 25) <<< 5))

theorem bind_eq_ok_iff {ε α β : Type} {x : Except ε α} {f : α → Except ε β} {b : β} :
    x >>= f = .ok b ↔ ∃ a, x = .ok a ∧ f a = .ok b := by
  cases x <;> simp [bind, Except.bind]

theorem bind_eq_error_iff {ε α β : Type} {x : Except ε α} {f : α → Except ε β} {e : ε} :
    x >>= f = .error e ↔ x = .error e ∨ ∃ a, x = .ok a ∧ f a = .error e := by
  cases x <;> simp [bind, Except.bind]

variable {M : Type}

-- The switch of `inst_cycle`. The cases without an instruction of the subset do nothing.
def execute (bus : Bus M) (inst : Word) (s : State M) : Except Stop (State M) :=
  match opcode inst with
  | 0x33#32 =>
    if funct3 inst = 0 ∧ funct7 inst = 0 then
      .ok <| s.setReg (rd inst) (s.reg (rs1 inst) + s.reg (rs2 inst))
    else
      .ok s
  | 0x13#32 =>
    if funct3 inst = 0 then
      .ok <| s.setReg (rd inst) (s.reg (rs1 inst) + immI inst)
    else
      .ok s
  | 0x37#32 => .ok <| s.setReg (rd inst) (inst &&& 0xfffff000)
  | 0x67#32 =>
    if funct3 inst = 0 then
      let temp := s.pc
      .ok <| { s with pc := (s.reg (rs1 inst) + immI inst) &&& ~~~1 }.setReg (rd inst) temp
    else
      .ok s
  | 0x03#32 =>
    let addr := s.reg (rs1 inst) + immI inst
    if funct3 inst = 2 then do
      let v ← bus.lw s.memory addr
      return s.setReg (rd inst) v
    else if funct3 inst = 4 then do
      let b ← bus.lbu s.memory addr
      return s.setReg (rd inst) (b.setWidth 32)
    else
      .ok s
  | 0x23#32 =>
    let addr := s.reg (rs1 inst) + immS inst
    if funct3 inst = 2 then do
      let m ← bus.sw s.memory addr (s.reg (rs2 inst))
      return { s with memory := m }
    else if funct3 inst = 0 then do
      let m ← bus.sb s.memory addr ((s.reg (rs2 inst) &&& 0xff).setWidth 8)
      return { s with memory := m }
    else
      .ok s
  | 0x73#32 =>
    if funct3 inst = 0 then
      if inst >>> 20 = 1 then do
        let m ← bus.ebreak s.memory (s.reg 10)
        return { s with memory := m }
      else if inst >>> 20 = 0 then
        .error .ecall
      else
        .ok s
    else
      .ok s
  | op => .error <| .unknownInstruction op (s.pc - 4)

abbrev memSize : Nat := 1024 * 1024

-- Both ROM arrays have 1 MB.
def fetch (rom : Memory 32) (pc : Word) : Except Stop Word :=
  if pc.toNat + 4 ≤ memSize then .ok (rom.load32 pc) else .error (.outOfRom pc)

-- `PC += 4; Register[0] = 0;`
def State.advance (s : State M) : State M :=
  { s with pc := s.pc + 4 }.setReg 0 0

def instCycle (bus : Bus M) (rom : Memory 32) (s : State M) : Except Stop (State M) := do
  let inst ← fetch rom s.pc
  execute bus inst s.advance

theorem instCycle_eq_ok_iff {bus : Bus M} {rom : Memory 32} {s s' : State M} : instCycle bus rom s = .ok s' ↔
    s.pc.toNat + 4 ≤ memSize ∧ execute bus (rom.load32 s.pc) s.advance = .ok s' := by
  by_cases h : s.pc.toNat + 4 ≤ memSize
  all_goals simp [instCycle, fetch, h, bind, Except.bind]

def cycles (bus : Bus M) (rom : Memory 32) : Nat → State M → Except Stop (State M)
  | 0,     s => .ok s
  | n + 1, s => do cycles bus rom n (← instCycle bus rom s)

-- An access to `len` elements of an array of `size` bytes.
def element {α : Type} (size : Nat) (addr : Word) (len : Nat) (x : α) : Except Stop α :=
  if addr.toNat + len ≤ size then .ok x else .error (.outOfMemory addr len)

theorem element_eq_ok_iff {α : Type} {size len : Nat} {addr : Word} {x y : α} :
    element size addr len x = .ok y ↔ addr.toNat + len ≤ size ∧ x = y := by
  by_cases h : addr.toNat + len ≤ size <;> simp [element, h]

theorem element_eq_error_iff {α : Type} {size len : Nat} {addr : Word} {x : α} {e : Stop} :
    element size addr len x = .error e ↔ ¬addr.toNat + len ≤ size ∧ .outOfMemory addr len = e := by
  by_cases h : addr.toNat + len ≤ size <;> simp [element, h]

-- An array of `size` bytes.
def arrayBus (size : Nat) : Bus (Memory 32) where
  lw m addr     := element size addr 4 (m.load32 addr)
  lbu m addr    := element size addr 1 (m addr)
  sw m addr v   := element size addr 4 (m.store addr 4 v)
  sb m addr b   := element size addr 1 (m.store addr 1 b)
  ebreak _ a0   := if a0 = 0 then .error .hitGoodTrap else .error .hitBadTrap

-- C_minirv
def bus : Bus (Memory 32) :=
  arrayBus memSize

end CMinirv
