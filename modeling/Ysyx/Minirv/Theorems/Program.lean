import Ysyx.Minirv.Program
import Ysyx.Minirv.Theorems.Branch
import Ysyx.Minirv.Theorems.Logic
import Ysyx.Minirv.Theorems.Shift
import Ysyx.Minirv.Theorems.Subword

-- The expansion of a line does what the line does, except for gp, tp, the scratch area and the scratch array.

open Rv32 State InstReplace
open Rv32.Asm (Line Alu AluImm)

namespace InstReplace

variable {sym : Symbols} {s : State} {rd rs1 rs2 : Reg} {imm : BitVec 12} {addr : Nat → Word} {i : Nat}
  {code : List Instr} {v : Word} {W : List Reg} {V : List (Fin 8)}

-- The memory that the expansions use for themselves.
def hidden (sym : Symbols) (s : State) : Set Word :=
  scratch (s.reg sp) ∪ sym.array

-- The line leaves that memory to the expansions.
structure Clear (sym : Symbols) (s : State) (l : Line Nat) : Prop where
  reads  : Disjoint (l.reads s) (hidden sym s)
  writes : Disjoint (l.writes s) (hidden sym s)

theorem simulates_computes {M : Set Word} (c : s.Computes code W V rd v) (hs : Straight code)
    (hn : addr (i + 1) = s.pc + BitVec.ofNat 32 (4 * code.length)) (hw : W ⊆ [gp, tp] := by simp) :
    s.Simulates code (scratch (s.reg sp) ∪ M) ((s.setReg rd v).jump (addr (i + 1))) := by
  intro fetch hc
  have ⟨s', hs', hp, hr, hm⟩ := c.implements hs hw fetch hc
  exact ⟨s', hs', hn ▸ hp, hr, fun a ha => hm a fun h => ha (.inl h)⟩

-- A base instruction stands for itself.
theorem simulates_exec {M : Set Word} (x : Instr) : s.Simulates [x] M (s.exec x) := by
  intro fetch hc
  exact ⟨_, steps_eq_run hc (by simp), rfl, fun _ _ => rfl, fun _ _ => rfl⟩

theorem simulates_next {M : Set Word} {x : Instr} {s' : State} (hx : s.exec x = s'.next) (hp : s'.pc = s.pc)
    (hn : addr (i + 1) = s.pc + BitVec.ofNat 32 (4 * [x].length)) : s.Simulates [x] M (s'.jump (addr (i + 1))) := by
  have h : s.exec x = s'.jump (addr (i + 1)) := by
    rw [hx, next, hp, hn]
    rfl
  exact h ▸ simulates_exec x

theorem simulates_nil {M : Set Word} (hn : addr (i + 1) = s.pc + BitVec.ofNat 32 (4 * ([] : List Instr).length)) :
    s.Simulates [] M (s.jump (addr (i + 1))) := by
  intro fetch _
  exact ⟨s, rfl, by simp [hn], fun _ _ => rfl, fun _ _ => rfl⟩

theorem logicArgs_of_logic {lut : Word} (hc : logic lut rd rs1 rs2 = some code) (h₀ : rd ≠ x0) :
    LogicArgs rd rs1 rs2 := by
  rw [logic, if_neg h₀] at hc
  split at hc
  case isTrue => cases hc
  case isFalse hs =>
    split at hc
    case isTrue => cases hc
    case isFalse hg =>
      split at hc
      case isTrue => cases hc
      case isFalse ht =>
        refine ⟨?_, ?_, ?_⟩
        all_goals
          simp only [List.mem_cons, List.not_mem_nil, or_false]
          tauto

section Lines

variable (r : sym.Ready s) (hn : addr (i + 1) = s.pc + BitVec.ofNat 32 (4 * code.length))

include r hn

-- A bitwise operation that writes to x0 has no expansion.
theorem logic_simulates {lut : Word} {expr op op8} (hl : ∀ s, sym.Ready s → s.mem.Holds lut (genTable 256 256 1 expr))
    (hb : Bytewise expr op op8) (hc : logic lut rd rs1 rs2 = some code) :
    s.Simulates code (hidden sym s) ((s.setReg rd (op (s.reg rs1) (s.reg rs2))).jump (addr (i + 1))) := by
  by_cases h₀ : rd = x0
  case pos =>
    rw [logic, if_pos h₀] at hc
    cases hc
    exact h₀ ▸ simulates_nil hn
  case neg =>
    have ha := logicArgs_of_logic hc h₀
    obtain ⟨code', hc', c⟩ := run_logic hl hb r ha
    cases hc.symm.trans hc'
    exact simulates_computes c (straight_logic hc ha) hn

theorem op_simulates {f : Alu} (ht : rs1 ≠ tp) (hc : expandOp sym rd rs1 rs2 f = some code) :
    s.Simulates code (hidden sym s) ((s.setReg rd (f.eval (s.reg rs1) (s.reg rs2))).jump (addr (i + 1))) := by
  cases f
  case and  => exact logic_simulates r hn (fun _ r => r.tables.and8) bytewise_and hc
  case or   => exact logic_simulates r hn (fun _ r => r.tables.or8) bytewise_or hc
  case xor  => exact logic_simulates r hn (fun _ r => r.tables.xor8) bytewise_xor hc
  all_goals cases hc
  case add  => exact simulates_next rfl pc_setReg hn
  case sub  => exact simulates_computes (run_sub r ht) straight_sub hn
  case sll  => exact simulates_computes (run_sll r) straight_sll hn
  case slt  => exact simulates_computes (bit_slt ▸ run_slt r) straight_sltTemplate hn
  case sltu => exact simulates_computes (bit_ult ▸ run_sltu r) straight_sltTemplate hn
  case srl  =>
    exact simulates_computes (run_shiftRight r (by simp) (Nat.mod_lt _ (by decide))) straight_shiftRight hn
  case sra  =>
    exact simulates_computes (run_shiftRight r (by simp) (Nat.mod_lt _ (by decide))) straight_shiftRight hn

theorem logici_simulates {lut : Word} {expr op op8} (hl : ∀ s, sym.Ready s → s.mem.Holds lut (genTable 256 256 1 expr))
    (hb : Bytewise expr op op8) (ht : rs1 ≠ tp) (hc : (logic lut rd rs1 tp).map ([li tp imm] ++ ·) = some code) :
    s.Simulates code (hidden sym s) ((s.setReg rd (op (s.reg rs1) (imm.signExtend 32))).jump (addr (i + 1))) := by
  obtain ⟨code', hc', rfl⟩ := Option.map_eq_some_iff.mp hc
  have w : Within [tp] [varA, varB, varC, varD] ∅ s (s.run [li tp imm]) := by simp
  have c : s.Computes ([li tp imm] ++ code') [tp] [varA, varB, varC, varD] rd (op (s.reg rs1) (imm.signExtend 32)) := by
    by_cases h₀ : rd = x0
    case pos =>
      rw [logic, if_pos h₀] at hc'
      cases hc'
      exact ⟨_, w, by simp [h₀, setReg_zero]⟩
    case neg =>
      obtain ⟨code'', hc'', c⟩ := run_logic hl hb (r.within w) (logicArgs_of_logic hc' h₀)
      cases hc'.symm.trans hc''
      exact .prepend w <| by simpa [ht] using c
  have hs : Straight code' := by
    by_cases h₀ : rd = x0
    case pos =>
      rw [logic, if_pos h₀] at hc'
      cases hc'
      exact straight_nil
    case neg => exact straight_logic hc' (logicArgs_of_logic hc' h₀)
  exact simulates_computes c (straight_append.mpr ⟨by simp, hs⟩) hn

theorem opImm_simulates {f : AluImm} (ht : rs1 ≠ tp) (hc : expandOpImm sym rd rs1 imm f = some code) :
    s.Simulates code (hidden sym s)
      ((s.setReg rd (f.alu.eval (s.reg rs1) (imm.signExtend 32))).jump (addr (i + 1))) := by
  cases f
  case andi => exact logici_simulates r hn (fun _ r => r.tables.and8) bytewise_and ht hc
  case ori  => exact logici_simulates r hn (fun _ r => r.tables.or8) bytewise_or ht hc
  case xori => exact logici_simulates r hn (fun _ r => r.tables.xor8) bytewise_xor ht hc
  all_goals cases hc
  case addi  => exact simulates_next rfl pc_setReg hn
  case slti  =>
    exact simulates_computes (bit_slt ▸ run_slti r ht) (straight_append.mpr ⟨by simp, straight_sltTemplate⟩) hn
  case sltiu =>
    exact simulates_computes (bit_ult ▸ run_sltiu r ht) (straight_append.mpr ⟨by simp, straight_sltTemplate⟩) hn

theorem shift_simulates {f : Asm.Shift} {shamt : BitVec 5} (hs : rd ≠ sp) (ht : rd ≠ tp)
    (hc : expandShift sym rd rs1 shamt f = code) :
    s.Simulates code (hidden sym s) ((s.setReg rd (f.eval (s.reg rs1) shamt.toNat)).jump (addr (i + 1))) := by
  subst hc
  have hr {isArith} : s.Computes (shiftRightTemplate sym rd rs1 (.imm shamt.toNat) isArith) [gp, tp]
      [1, varA, varB, varC, varD] rd (shiftRight isArith (s.reg rs1) shamt.toNat) := by
    by_cases h : shamt.toNat = 24
    case pos => exact h ▸ run_shiftRight_24 r hs ht
    case neg => exact run_shiftRight r (by simpa using h) shamt.isLt
  cases f
  case slli => exact simulates_computes (run_slli_lt_32 shamt.isLt hs) straight_slli hn
  case srli => exact simulates_computes hr straight_shiftRight hn
  case srai => exact simulates_computes hr straight_shiftRight hn

end Lines

section Accesses

theorem fits_of_halfword {code' : List Instr} (rs1 : Reg) (hc : halfword imm code' = some code) :
    (⟨imm.toInt, rs1⟩ : Addr).Fits ∧ code' = code := by
  rw [halfword] at hc
  split at hc
  case isTrue h => exact ⟨⟨BitVec.le_toInt imm, h⟩, Option.some.inj hc⟩
  case isFalse => cases hc

-- Nothing is said about the byte behind the one that is loaded.
theorem lb_computes (r : sym.Ready s) (hx : s.addr imm rs1 ∉ scratch (s.reg sp)) (h₀ : rd ≠ x0) (hs : rd ≠ sp)
    (ht : rd ≠ tp) : s.Computes (lb sym rd ⟨imm.toInt, rs1⟩) [gp, tp] [1, varA, varB, varC, varD] rd
      ((s.mem (s.addr imm rs1)).signExtend 32) := by
  have ⟨w, hv⟩ := loadByte_spec (o := ⟨imm.toInt, rs1⟩) 3 (by rw [BitVec.ofInt_toInt]) hx h₀ hs
  have c : (s.run (loadByte rd ⟨imm.toInt, rs1⟩ 3)).Computes (srai sym rd rd 24) _ _ rd _ :=
    run_shiftRight_24 (r.within w (by simpa using hs.symm)) hs ht
  have e : lb sym rd ⟨imm.toInt, rs1⟩ = loadByte rd ⟨imm.toInt, rs1⟩ 3 ++ srai sym rd rd 24 := rfl
  rw [e]
  refine .of_within ?_ hs fun _ => ?_
  case refine_1 =>
    rw [run_append]
    exact w.mono.trans (c.within (M := ∅) (by simp) hs).mono (by simpa using hs.symm)
  case refine_2 =>
    rw [run_append, c.reg h₀, hv, ← sshiftRight_byte_3]
    rfl

theorem free_of_disjoint (hf : (⟨imm.toInt, rs1⟩ : Addr).Fits)
    (hd : Disjoint (Memory.region (s.addr imm rs1) 2) (hidden sym s)) : (⟨imm.toInt, rs1⟩ : Addr).Free s where
  fits     := hf
  first h  := Set.disjoint_left.mp hd
    ((Memory.mem_region_iff (by decide)).mpr ⟨0, by decide, (BitVec.add_zero _).symm⟩) (.inl h)
  second h := Set.disjoint_left.mp hd ((Memory.mem_region_iff (by decide)).mpr ⟨1, by decide, rfl⟩) (.inl h)

theorem load_simulates {f : Asm.Load} (r : sym.Ready s)
    (hn : addr (i + 1) = s.pc + BitVec.ofNat 32 (4 * code.length)) (h1 : rs1 ∉ [gp, tp]) (hd : rd ∉ [gp, tp])
    (h₀ : f = .lw ∨ f = .lbu ∨ rd ∉ [x0, sp])
    (hf : Disjoint (Memory.region (s.addr imm rs1) f.width) (hidden sym s))
    (hc : expandLoad sym rd rs1 imm f = some code) :
    s.Simulates code (hidden sym s) ((s.setReg rd (f.eval s.mem (s.addr imm rs1))).jump (addr (i + 1))) := by
  cases f
  case lw  =>
    cases hc
    exact simulates_next rfl pc_setReg hn
  case lbu =>
    cases hc
    exact simulates_next rfl pc_setReg hn
  all_goals
    have hr : rd ∉ [x0, sp, gp, tp] := by simp_all
    simp only [List.mem_cons, List.not_mem_nil, or_false, not_or] at hr
  case lb  =>
    cases hc
    have hx : s.addr imm rs1 ∉ scratch (s.reg sp) := fun h =>
      Set.disjoint_left.mp hf ((Memory.mem_region_iff (by decide)).mpr ⟨0, by decide, (BitVec.add_zero _).symm⟩) <|
        .inl h
    exact simulates_computes (lb_computes r hx hr.left hr.right.left hr.right.right.right) straight_lb hn
  case lhu =>
    obtain ⟨ht, rfl⟩ := fits_of_halfword rs1 hc
    exact simulates_computes (run_lhu (free_of_disjoint ht hf) (by simp [hr]) h1) straight_lhu hn
  case lh  =>
    obtain ⟨ht, rfl⟩ := fits_of_halfword rs1 hc
    exact simulates_computes (run_lh r (free_of_disjoint ht hf) (by simp [hr]) h1) straight_lh hn

theorem store_simulates {f : Asm.Store} (hn : addr (i + 1) = s.pc + BitVec.ofNat 32 (4 * code.length))
    (h1 : rs1 ∉ [gp, tp]) (hf : Disjoint (Memory.region (s.addr imm rs1) f.width) (hidden sym s))
    (hc : expandStore rs1 rs2 imm f = some code) :
    s.Simulates code (hidden sym s)
      ((s.setMem (s.mem.store (s.addr imm rs1) f.width (s.reg rs2))).jump (addr (i + 1))) := by
  cases f
  case sw =>
    cases hc
    exact simulates_next rfl rfl hn
  case sb =>
    cases hc
    exact simulates_next rfl rfl hn
  case sh =>
    obtain ⟨ht, rfl⟩ := fits_of_halfword rs1 hc
    intro fetch hc
    have hs : Straight (sh rs2 ⟨imm.toInt, rs1⟩) := straight_sh
    have ⟨hr, hm⟩ : _ ∧ ∀ x ∉ _, (s.run (sh rs2 ⟨imm.toInt, rs1⟩)).mem x = _ := run_sh (free_of_disjoint ht hf) h1
    exact ⟨_, steps_eq_run hc fun i h => hs i (List.mem_of_mem_dropLast h), hn ▸ run_pc hs, hr,
      fun a ha => hm a fun h => ha (.inl h)⟩

end Accesses

section Jumps

variable {target : Word}

theorem branch_simulates {c : Asm.Cond} {t : Nat} (r : sym.Ready s) (f : sym.ArrayFree s)
    (hn : addr (i + 1) = s.pc + BitVec.ofNat 32 (4 * code.length)) (h2 : rs2 ≠ gp) (hs : s.pc.toNat % 2 = 0)
    (ht : (addr t).toNat % 2 = 0) (hc : expandBranch sym rs1 rs2 (addr t) (addr (i + 1)) c = code) :
    s.Simulates code (hidden sym s) (s.jump (addr (if c.Holds (s.reg rs1) (s.reg rs2) then t else i + 1))) := by
  subst hc
  rw [apply_ite addr]
  cases c
  case eq  => exact beq_branches r f ht hs _ hn
  case ne  => exact bne_branches r f ht hs _ hn
  case lt  => exact blt_branches r h2 ht hs _ hn
  case ge  => exact bge_branches r h2 ht hs _ hn
  case ltu => exact bltu_branches r ht hs _ hn
  case geu => exact bgeu_branches r ht hs _ hn

theorem j_simulates {M : Set Word} (ht : target.toNat % 2 = 0) : s.Simulates (j target) M (s.jump target) := by
  intro fetch hc
  refine ⟨_, steps_eq_run hc (by simp [j, la]), ?_⟩
  rw [j, run_append, run_la, run_cons, run_nil, exec]
  refine ⟨?_, fun r hr => ?_, fun a _ => ?_⟩
  case refine_1 => simpa using aligned ht
  case refine_2 =>
    have hr : r ≠ tp := fun he => hr (by simp [he])
    simp [setReg_zero, hr]
  case refine_3 => simp

theorem callTemplate_simulates {M : Set Word}
    (hn : addr (i + 1) = s.pc + BitVec.ofNat 32 (4 * (callTemplate rd target).length))
    (h₀ : rd ≠ x0) (ht : target.toNat % 2 = 0) :
    s.Simulates (callTemplate rd target) M ((s.setReg rd (addr (i + 1))).jump target) := by
  intro fetch hc
  refine ⟨_, steps_eq_run hc (by simp [callTemplate, la]), ?_⟩
  rw [hn, callTemplate, run_append, run_la, run_cons, run_nil, exec]
  refine ⟨?_, fun r _ => ?_, fun a _ => ?_⟩
  case refine_1 => simpa [h₀] using aligned ht
  case refine_2 => by_cases hr : r = rd <;> simp [hr, h₀, la, BitVec.add_assoc]
  case refine_3 => simp

theorem jal_simulates {t : Nat} (hn : addr (i + 1) = s.pc + BitVec.ofNat 32 (4 * code.length))
    (ht : (addr t).toNat % 2 = 0) (hc : jal rd (addr t) = code) :
    s.Simulates code (hidden sym s) ((s.setReg rd (addr (i + 1))).jump (addr t)) := by
  subst hc
  rw [jal] at hn ⊢
  by_cases h₀ : rd = x0
  case pos =>
    rw [if_pos h₀, h₀, setReg_zero]
    exact j_simulates ht
  case neg =>
    rw [if_neg h₀] at hn ⊢
    exact callTemplate_simulates hn h₀ ht

end Jumps

-- The lines that a compiler may write: it does not use gp and tp, and shifts and the loads that are not base
-- instructions do not go to sp.
def Accepted (l : Line Nat) : Prop :=
  gp ∉ l.operands ∧ tp ∉ l.operands ∧
  match l with
  | .shift _ rd _ _  => rd ≠ sp
  | .load f rd _ _   => f = .lw ∨ f = .lbu ∨ rd ∉ [x0, sp]
  | _                => True

instance : DecidablePred Accepted
  | .op .. | .opImm .. | .lui .. | .store .. | .branch .. | .jal .. | .jalr .. | .shift .. | .load .. =>
    inferInstanceAs <| Decidable (_ ∧ _ ∧ _)

theorem line_simulates {l : Line Nat} (hl : Accepted l) (r : sym.Ready s) (f : sym.ArrayFree s) (hp : s.pc = addr i)
    (hn : addr (i + 1) = s.pc + BitVec.ofNat 32 (4 * code.length)) (he : ∀ i, (addr i).toNat % 2 = 0)
    (hm : Clear sym s l) (hc : expand sym addr i l = some code) :
    s.Simulates code (hidden sym s) (l.exec addr i s) := by
  obtain ⟨hg, ht, hl⟩ := hl
  have hs : s.pc.toNat % 2 = 0 := hp ▸ he i
  cases l
  all_goals
    simp only [Line.operands, List.mem_cons, List.not_mem_nil, or_false, not_or] at hg ht
    rw [expand] at hc
  case op f rd rs1 rs2 => exact op_simulates r hn (Ne.symm ht.right.left) hc
  case opImm f rd rs1 imm => exact opImm_simulates r hn (Ne.symm ht.right) hc
  case shift f rd rs1 shamt => exact shift_simulates r hn hl (Ne.symm ht.left) (Option.some_inj.mp hc)
  case lui =>
    cases hc
    exact simulates_next rfl pc_setReg hn
  case load f rd imm rs1 =>
    have h1 : rs1 ∉ [gp, tp] := by simp [Ne.symm hg.right, Ne.symm ht.right]
    have hd : rd ∉ [gp, tp] := by simp [Ne.symm hg.left, Ne.symm ht.left]
    exact load_simulates r hn h1 hd hl hm.reads hc
  case store f rs2 imm rs1 =>
    have h1 : rs1 ∉ [gp, tp] := by simp [Ne.symm hg.right, Ne.symm ht.right]
    exact store_simulates hn h1 hm.writes hc
  case branch c rs1 rs2 t => exact branch_simulates r f hn (Ne.symm hg.right) hs (he _) (Option.some_inj.mp hc)
  case jal => exact jal_simulates hn (he _) (Option.some_inj.mp hc)
  case jalr rd rs1 imm =>
    cases hc
    have h : (Line.jalr rd rs1 imm).exec addr i s = s.exec (.jalr rd rs1 imm) := by
      rw [Line.exec, hn]
      rfl
    exact h ▸ simulates_exec _

end InstReplace
