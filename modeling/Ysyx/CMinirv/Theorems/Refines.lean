import Ysyx.CMinirv.Theorems.Decode

-- C_minirv refines the RV32 machine that fetches its instructions from the same ROM.

open Rv32 BitVec

namespace CMinirv

variable {c c' : State (Memory 32)} {s s' : Rv32.State} {rom : Memory 32} {a v : Word} {n : Nat}

-- `Register[0]` is not related: instructions with `rd = 0` write it, and the next fetch clears it.
structure Related (c : State (Memory 32)) (s : Rv32.State) : Prop where
  pc       : c.pc = s.pc
  register : ∀ r ≠ 0, c.register r = s.reg r
  memory   : ∀ a : Word, a.toNat < memSize → c.memory a = s.mem a

-- The state in which a fetched instruction is executed.
structure Fetched (c : State (Memory 32)) (s : Rv32.State) : Prop where
  pc       : c.pc = s.pc + 4
  register : ∀ r, c.register r = s.reg r
  memory   : ∀ a : Word, a.toNat < memSize → c.memory a = s.mem a

namespace Related

theorem fetched (h : Related c s) : Fetched c.advance s where
  pc := by simp [State.advance, State.setReg, h.pc]
  memory := h.memory
  register r := by
    by_cases hr : r = 0
    case pos => simp [State.advance, State.setReg, hr]
    case neg => simpa [State.advance, State.setReg, hr] using h.register r hr

theorem instCycle_eq (h : Related c s) (hp : s.pc.toNat + 4 ≤ memSize) :
    instCycle bus rom c = execute bus (rom.load32 s.pc) c.advance := by
  rw [instCycle, fetch, h.pc, if_pos hp]
  rfl

end Related

theorem toNat_add_ofNat {i k : Nat} (h : a.toNat + k ≤ memSize) (hi : i < k) :
    (a + BitVec.ofNat 32 i).toNat = a.toNat + i := by
  simp only [memSize] at h
  rw [toNat_add, toNat_ofNat]
  omega

section

variable {m : Memory 32} {b : Byte}

theorem bus_lw (h : a.toNat + 4 ≤ memSize) : bus.lw m a = .ok (m.load32 a) :=
  if_pos h

theorem bus_lbu (h : a.toNat + 1 ≤ memSize) : bus.lbu m a = .ok (m a) :=
  if_pos h

theorem bus_sw (h : a.toNat + 4 ≤ memSize) : bus.sw m a v = .ok (m.store a 4 v) :=
  if_pos h

theorem bus_sb (h : a.toNat + 1 ≤ memSize) : bus.sb m a b = .ok (m.store a 1 b) :=
  if_pos h

end

namespace Fetched

theorem reg_update (h : Fetched c s) (d : Reg) (v : Word) (r : Reg) (hr : r ≠ 0) :
    Function.update c.register d v r = (s.setReg d v).reg r := by
  by_cases hd : r = d
  case pos => simp [hd ▸ hr, hd]
  case neg => simp [hd, h.register]

theorem setReg_next (h : Fetched c s) (d : Reg) (v : Word) :
    Related { c with register := Function.update c.register d v } (s.setReg d v).next where
  pc       := by simp [h.pc]
  register := h.reg_update d v
  memory   := by simpa using h.memory

theorem setReg_jump (h : Fetched c s) (d : Reg) (v target : Word) :
    Related { c with register := Function.update c.register d v, pc := target } ((s.setReg d v).jump target) where
  pc       := rfl
  register := h.reg_update d v
  memory   := by simpa using h.memory

theorem store_next {k : Nat} {b : BitVec k} (h : Fetched c s) (a : Word) (n : Nat) :
    Related { c with memory := c.memory.store a n b } (s.setMem (s.mem.store a n b)).next where
  pc         := h.pc
  register r := fun _ => h.register r
  memory x hx := by simp only [State.mem_next, State.mem_setMem, Memory.store_apply, h.memory x hx]

theorem addr_eq (h : Fetched c s) (imm : BitVec 12) (r : Reg) :
    c.register r + imm.signExtend 32 = s.addr imm r := by
  rw [h.register, Rv32.State.addr]

theorem load32_eq (h : Fetched c s) (ha : a.toNat + 4 ≤ memSize) : c.memory.load32 a = s.mem.load32 a :=
  Memory.load32_congr fun i hi => h.memory _ <| by
    rw [toNat_add_ofNat ha hi]
    omega

-- `sb` stores the low byte, which the program computes by a mask and a conversion.
theorem store_low_byte {m : Memory 32} : m.store a 1 ((v &&& 0xff).setWidth 8) = m.store a 1 v := by
  have h₁ : (v &&& 0xff).setWidth 8 = v.setWidth 8 := by
    rw [setWidth_and]
    exact and_allOnes
  funext x
  rw [Memory.store_apply, Memory.store_apply, h₁]
  split
  case isTrue h₂ =>
    rw [Nat.lt_one_iff.mp h₂]
    ext i hi
    simp [show i < 32 by omega]
  case isFalse => rfl

-- One case for each instruction of the subset.
theorem execute_related (h : Fetched c s) (i : Instr) (ha : ∀ a ∈ i.access s, a.fst.toNat + a.snd ≤ memSize) :
    ∃ c', execute bus i.encode c = .ok c' ∧ Related c' (s.exec i) := by
  cases i
  case add d r₁ r₂ =>
    refine ⟨_, execute_add, ?_⟩
    rw [h.register, h.register]
    exact h.setReg_next ..
  case addi d r₁ imm =>
    refine ⟨_, execute_addi, ?_⟩
    rw [h.register]
    exact h.setReg_next ..
  case lui d imm => exact ⟨_, execute_lui, h.setReg_next ..⟩
  case jalr d r₁ imm =>
    refine ⟨_, execute_jalr, ?_⟩
    rw [h.register, h.pc]
    exact h.setReg_jump ..
  case lw d imm r₁ =>
    have ha : (s.addr imm r₁).toNat + 4 ≤ memSize := ha _ rfl
    refine ⟨_, ?_, h.setReg_next ..⟩
    rw [execute_lw, h.addr_eq, bus_lw ha, h.load32_eq ha]
    rfl
  case lbu d imm r₁ =>
    have ha : (s.addr imm r₁).toNat + 1 ≤ memSize := ha _ rfl
    refine ⟨_, ?_, h.setReg_next ..⟩
    rw [execute_lbu, h.addr_eq, bus_lbu ha, h.memory _ ha]
    rfl
  case sw r₂ imm r₁ =>
    have ha : (s.addr imm r₁).toNat + 4 ≤ memSize := ha _ rfl
    refine ⟨_, ?_, h.store_next ..⟩
    rw [execute_sw, h.addr_eq, h.register, bus_sw ha]
    rfl
  case sb r₂ imm r₁ =>
    have ha : (s.addr imm r₁).toNat + 1 ≤ memSize := ha _ rfl
    refine ⟨_, ?_, h.store_next ..⟩
    rw [execute_sb, h.addr_eq, h.register, bus_sb ha, store_low_byte]
    rfl

end Fetched

theorem cycles_succ (h : cycles bus rom n c = .ok c') : cycles bus rom (n + 1) c = instCycle bus rom c' := by
  induction n generalizing c
  case zero =>
    cases h
    exact bind_pure (instCycle bus rom c')
  case succ n ih =>
    rw [cycles] at h ⊢
    cases hc : instCycle bus rom c
    case error => simp [hc, bind, Except.bind] at h
    case ok =>
      rw [hc] at h
      exact ih h

theorem cycles_refine_rv32 (h : Related c s) (e : Executes rom memSize n s s') :
    ∃ c', cycles bus rom n c = .ok c' ∧ Related c' s' := by
  induction e with
  | zero => exact ⟨c, rfl, h⟩
  | succ _ hi hp ha ih =>
    have ⟨_, hc, hr⟩ := ih h
    rw [cycles_succ hc, hr.instCycle_eq hp, hi]
    exact hr.fetched.execute_related _ ha

-- The state of the specification machine that an emulator state represents.
def State.spec (c : State (Memory 32)) : Rv32.State :=
  ⟨c.register, c.pc, c.memory⟩

theorem related_spec : Related c c.spec where
  pc         := rfl
  register _ := fun h => (if_neg h).symm
  memory   _ := fun _ => rfl

def refineRom : Memory 32 :=
  assemble [.addi 0 1 5, .sb 1 0 0, .lw 1 (-4) 1, .jalr 1 1 1]

def refineStart : State (Memory 32) where
  register := fun _ => 0xfffff
  pc       := 0
  memory   := fun _ => 1

theorem cycles_refine_rv32_start : ∃ c', cycles bus refineRom 4 refineStart = .ok c' ∧
    Related c' (refineStart.spec.run [.addi 0 1 5, .sb 1 0 0, .lw 1 (-4) 1, .jalr 1 1 1]) :=
  have h₁ : Executes refineRom memSize 1 refineStart.spec _ :=
    .succ .zero (i := .addi 0 1 5) (by decide) (by decide) (by decide)
  have h₂ := h₁.succ (i := .sb 1 0 0) (by decide) (by decide) (by decide)
  have h₃ := h₂.succ (i := .lw 1 (-4) 1) (by decide) (by decide) (by decide)
  have h₄ := h₃.succ (i := .jalr 1 1 1) (by decide) (by decide) (by decide)
  cycles_refine_rv32 related_spec h₄

end CMinirv
