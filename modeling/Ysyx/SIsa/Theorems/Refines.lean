import Ysyx.SIsa.Basic

-- C_sISA and sCPU are the same machine.

namespace SIsa

open BitVec Emulator

variable {M : Fin 16 → Byte} {c c' : Emulator} {s : Top} {n : Nat} {i : Byte}

-- The program counter of sCPU has 4 bits and wraps, the one of C_sISA reaches 16 when the loop stops.
structure Related (c : Emulator) (s : Top) : Prop where
  PC : c.PC.setWidth 4 = s.PC
  R  : c.R = s.reg_main

-- The masks select the same fields as the bit slices.

theorem masks_opcode : ∀ i : Byte, (i &&& 0xC0#8) >>> 6 = (i.extractLsb' 6 2).setWidth 8 := by
  decide

theorem masks_rd : ∀ i : Byte, index ((i &&& 0x30#8) >>> 4) = (inst i).rd.toFin := by
  decide

theorem masks_rs1 : ∀ i : Byte, index ((i &&& 0x0C#8) >>> 2) = (inst i).rs1.toFin := by
  decide

theorem masks_rs2 : ∀ i : Byte, index (i &&& 0x03#8) = (inst i).rs2.toFin := by
  decide

theorem masks_imm : ∀ i : Byte, i &&& 0x0F#8 = 0b0000#4 ++ (inst i).imm := by
  decide

theorem masks_addr : ∀ i : Byte, ((i &&& 0x3C#8) >>> 2).setWidth 4 = (inst i).addr := by
  decide

theorem opcode_cases (k : BitVec 2) : k = 0b00 ∨ k = 0b01 ∨ k = 0b10 ∨ k = 0b11 := by
  revert k
  decide

-- What each opcode does in C_sISA.

theorem execute_add (h : i.extractLsb' 6 2 = 0b00) : execute i c = { c with
    R := Function.update c.R (inst i).rd.toFin (c.R (inst i).rs1.toFin + c.R (inst i).rs2.toFin) } := by
  simp [execute, masks, masks_opcode, h, setR, masks_rd, masks_rs1, masks_rs2]

theorem execute_print (h : i.extractLsb' 6 2 = 0b01) : ∃ out, execute i c = { c with printed := out } := by
  by_cases ho : i &&& 0x0F#8 = 0#8
  case pos => simp [execute, masks, masks_opcode, h, ho]
  case neg => exact ⟨c.printed, by simp [execute, masks, masks_opcode, h, ho]⟩

theorem execute_li (h : i.extractLsb' 6 2 = 0b10) : execute i c =
    { c with R := Function.update c.R (inst i).rd.toFin (0b0000#4 ++ (inst i).imm) } := by
  simp [execute, masks, masks_opcode, h, setR, masks_rd, masks_imm]

theorem execute_bner0 (h : i.extractLsb' 6 2 = 0b11) : execute i c =
    if c.R (inst i).rs2.toFin = c.R 0 then c else { c with PC := (i &&& 0x3C#8) >>> 2 } := by
  simp [execute, masks, masks_opcode, h, masks_rs2]

-- What each opcode does in sCPU.

theorem edge_add (hi : M s.PC.toFin = i) (h : i.extractLsb' 6 2 = 0b00) : s.edge M false =
    ⟨s.PC + 1, Function.update s.reg_main (inst i).rd.toFin
      (s.reg_main (inst i).rs1.toFin + s.reg_main (inst i).rs2.toFin)⟩ := by
  simp [Top.edge, Top.reg_s, hi, inst, h, alu]

theorem edge_print (hi : M s.PC.toFin = i) (h : i.extractLsb' 6 2 = 0b01) :
    s.edge M false = ⟨s.PC + 1, s.reg_main⟩ := by
  simp [Top.edge, Top.reg_s, hi, inst, h, alu]

theorem edge_li (hi : M s.PC.toFin = i) (h : i.extractLsb' 6 2 = 0b10) : s.edge M false =
    ⟨s.PC + 1, Function.update s.reg_main (inst i).rd.toFin (0b0000#4 ++ (inst i).imm)⟩ := by
  simp [Top.edge, Top.reg_s, hi, inst, h, alu]

theorem edge_bner0 (hi : M s.PC.toFin = i) (h : i.extractLsb' 6 2 = 0b11) : s.edge M false =
    ⟨if s.reg_main (inst i).rs2.toFin = s.reg_main 0 then s.PC + 1 else (inst i).addr, s.reg_main⟩ := by
  by_cases he : s.reg_main (inst i).rs2.toFin = s.reg_main 0
  all_goals simp [Top.edge, Top.reg_s, hi, inst, h, alu] at he ⊢
  all_goals simp [he, eq_comm]

namespace Related

-- `M[PC++]` and `rom` deliver the same instruction.
theorem fetch (h : Related c s) (hp : c.PC.toNat < 16) : M s.PC.toFin = M ⟨c.PC.toNat, hp⟩ :=
  congrArg M <| Fin.ext <| by
    rw [← h.PC]
    exact Nat.mod_eq_of_lt hp

theorem next (h : Related c s) : (c.PC + 1).setWidth 4 = s.PC + 1 := by
  rw [← h.PC, setWidth_add _ _ (by decide)]
  rfl

theorem execute_edge (h : Related c s) (hi : M s.PC.toFin = i) :
    Related (execute i { c with PC := c.PC + 1 }) (s.edge M false) := by
  rcases opcode_cases (i.extractLsb' 6 2) with ho | ho | ho | ho
  case _ =>
    rw [execute_add ho, edge_add hi ho]
    exact ⟨h.next, by rw [h.R]⟩
  case _ =>
    have ⟨_, he⟩ := execute_print (c := { c with PC := c.PC + 1 }) ho
    rw [he, edge_print hi ho]
    exact ⟨h.next, h.R⟩
  case _ =>
    rw [execute_li ho, edge_li hi ho]
    exact ⟨h.next, by rw [h.R]⟩
  case _ =>
    rw [execute_bner0 ho, edge_bner0 hi ho, h.R]
    split
    case isTrue => exact ⟨h.next, rfl⟩
    case isFalse => exact ⟨masks_addr i, rfl⟩

theorem inst_cycle_edge (h : Related c s) (hp : c.PC.toNat < 16) :
    ∃ c', instCycle M c = some c' ∧ Related c' (s.edge M false) :=
  ⟨_, dif_pos hp, h.execute_edge (h.fetch hp)⟩

theorem cycles_edges (h : Related c s) (hc : cycles M c n = some c') : Related c' (s.edges M n) := by
  induction n generalizing c'
  case zero =>
    cases hc
    exact h
  case succ n ih =>
    have ⟨c₁, h₁, h₂⟩ := Option.bind_eq_some_iff.mp hc
    have ⟨hp, _⟩ := Option.dite_none_right_eq_some.mp h₂
    have ⟨c₂, h₃, hr⟩ := (ih h₁).inst_cycle_edge (M := M) hp
    cases h₂.symm.trans h₃
    exact hr

end Related

-- One call of `inst_cycle` is one edge of the clock, as long as the loop of C_sISA has not stopped.
theorem inst_cycles_eq_edges (h : Related c s) :
    (c.PC.toNat < 16 → ∃ c', instCycle M c = some c' ∧ Related c' (s.edge M false)) ∧
    ∀ n c', cycles M c n = some c' → Related c' (s.edges M n) ∧
      (c'.PC.toNat < 16 → c'.PC.toNat = (s.edges M n).PC.toNat) := by
  refine ⟨h.inst_cycle_edge, fun n c' hc => ⟨h.cycles_edges hc, fun hp => ?_⟩⟩
  rw [← (h.cycles_edges hc).PC]
  exact (Nat.mod_eq_of_lt hp).symm

-- The program in the ROM of sCPU, which sums up the numbers from 1 to 10.
def sumRom : Fin 16 → Byte :=
  fun a => [0x8A, 0x90, 0xA0, 0xB1, 0x17, 0x29, 0xD1, 0xDF].getD a 0

theorem inst_cycles_eq_edges_sum : ∃ c', cycles sumRom ⟨0, fun _ => 7, []⟩ 10 = some c' ∧
    Related c' (Top.edges sumRom ⟨0, fun _ => 7⟩ 10) := by
  have h : Related ⟨0, fun _ => 7, []⟩ ⟨0, fun _ => 7⟩ := ⟨rfl, rfl⟩
  exact ⟨_, rfl, ((inst_cycles_eq_edges (M := sumRom) h).right 10 _ rfl).left⟩

end SIsa
