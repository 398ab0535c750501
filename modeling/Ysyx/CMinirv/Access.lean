import Ysyx.CMinirv.Basic

-- The data access of an instruction: what `lw`, `lbu`, `sw` and `sb` ask of the memory.

open Rv32

namespace CMinirv

inductive Access
  | lw  (addr : Word)
  | lbu (addr : Word)
  | sw  (addr v : Word)
  | sb  (addr : Word) (b : Byte)
  deriving DecidableEq, Repr

namespace Access

def addr : Access → Word
  | lw addr | lbu addr | sw addr _ | sb addr _ => addr

def len : Access → Nat
  | lw _ | sw _ _ => 4
  | lbu _ | sb _ _ => 1

-- The accessed bytes are elements of an array of `size` bytes.
def Inside (size : Nat) (a : Access) : Prop :=
  a.addr.toNat + a.len ≤ size

instance : DecidablePred (Inside size) :=
  fun a => inferInstanceAs <| Decidable (a.addr.toNat + a.len ≤ size)

end Access

variable {M : Type} {bus : Bus M} {inst a v : Word} {b : Byte} {s s' : State M}

def access (inst : Word) (s : State M) : Option Access :=
  if opcode inst = 0x03 then
    if funct3 inst = 2 then some (.lw (s.reg (rs1 inst) + immI inst))
    else if funct3 inst = 4 then some (.lbu (s.reg (rs1 inst) + immI inst))
    else none
  else if opcode inst = 0x23 then
    if funct3 inst = 2 then some (.sw (s.reg (rs1 inst) + immS inst) (s.reg (rs2 inst)))
    else if funct3 inst = 0 then
      some (.sb (s.reg (rs1 inst) + immS inst) ((s.reg (rs2 inst) &&& 0xff).setWidth 8))
    else none
  else none

def State.dataAccess (rom : Memory 32) (s : State M) : Option Access :=
  access (rom.load32 s.pc) s.advance

theorem access_eq_lw_iff : access inst s = some (.lw a) ↔
    opcode inst = 0x03 ∧ funct3 inst = 2 ∧ s.reg (rs1 inst) + immI inst = a := by
  grind [access]

theorem access_eq_lbu_iff : access inst s = some (.lbu a) ↔
    opcode inst = 0x03 ∧ funct3 inst = 4 ∧ s.reg (rs1 inst) + immI inst = a := by
  grind [access]

theorem access_eq_sw_iff : access inst s = some (.sw a v) ↔
    opcode inst = 0x23 ∧ funct3 inst = 2 ∧ s.reg (rs1 inst) + immS inst = a ∧ s.reg (rs2 inst) = v := by
  grind [access]

theorem access_eq_sb_iff : access inst s = some (.sb a b) ↔
    opcode inst = 0x23 ∧ funct3 inst = 0 ∧ s.reg (rs1 inst) + immS inst = a ∧
    (s.reg (rs2 inst) &&& 0xff).setWidth 8 = b := by
  grind [access]

-- The access on the bus, and what the instruction does with its result.
def Access.perform (bus : Bus M) (d : Word) (s : State M) : Access → Except Stop (State M)
  | .lw a    => do return s.setReg d (← bus.lw s.memory a)
  | .lbu a   => do return s.setReg d ((← bus.lbu s.memory a).setWidth 32)
  | .sw a v  => do return { s with memory := ← bus.sw s.memory a v }
  | .sb a b  => do return { s with memory := ← bus.sb s.memory a b }

theorem execute_access {acc : Access} (h : access inst s = some acc) :
    execute bus inst s = acc.perform bus (rd inst) s := by
  cases acc
  case lw =>
    have ⟨ho, hf, ha⟩ := access_eq_lw_iff.mp h
    simp [execute, Access.perform, ho, hf, ha]
  case lbu =>
    have ⟨ho, hf, ha⟩ := access_eq_lbu_iff.mp h
    simp [execute, Access.perform, ho, hf, ha]
  case sw =>
    have ⟨ho, hf, ha, hv⟩ := access_eq_sw_iff.mp h
    simp [execute, Access.perform, ho, hf, ha, hv]
  case sb =>
    have ⟨ho, hf, ha, hb⟩ := access_eq_sb_iff.mp h
    simp [execute, Access.perform, ho, hf, ha, ← hb]

-- What an instruction without a data access can do.
inductive Internal (bus : Bus M) (s : State M) : Except Stop (State M) → Prop
  | register (d v : Word) : Internal bus s (.ok (s.setReg d v))
  | jump (d v target : Word) : Internal bus s (.ok ({ s with pc := target &&& ~~~1 }.setReg d v))
  | skip : Internal bus s (.ok s)
  | ebreak : Internal bus s (do return { s with memory := ← bus.ebreak s.memory (s.reg 10) })
  | ecall : Internal bus s (.error .ecall)
  | unknownInstruction (op : Word) : Internal bus s (.error (.unknownInstruction op (s.pc - 4)))

theorem execute_internal (h : access inst s = none) : Internal bus s (execute bus inst s) := by
  unfold execute
  split
  case h_1 => split; exact .register ..; exact .skip
  case h_2 => split; exact .register ..; exact .skip
  case h_3 => exact .register ..
  case h_4 => split; exact .jump ..; exact .skip
  case h_5 ho =>
    split
    case isTrue hf => simp [access, ho, hf] at h
    split
    case isTrue hf => simp [access, ho, hf] at h
    exact .skip
  case h_6 ho =>
    split
    case isTrue hf => simp [access, ho, hf] at h
    split
    case isTrue hf => simp [access, ho, hf] at h
    exact .skip
  case h_7 =>
    split
    case isFalse => exact .skip
    split
    case isTrue => exact .ebreak
    split
    case isTrue => exact .ecall
    exact .skip
  case h_8 => exact .unknownInstruction _

end CMinirv
