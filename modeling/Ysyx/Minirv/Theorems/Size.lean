import Ysyx.Minirv.Theorems.Program

-- Which programs can be compiled, and how long they become.

open Rv32 State InstReplace
open Rv32.Asm (Line)

namespace InstReplace

variable {sym : Symbols} {addr : Nat → Word} {i : Nat} {l : Line Nat} {p : List (Line Nat)} {base : Word}
variable {rd rs1 rs2 : Reg} {imm : BitVec 12} {lut : Word}

section Expandable

-- The lines for which the assembler reports no error.
def Expandable : Line Nat → Prop
  | .op f rd rs1 rs2  => f ∉ [.and, .or, .xor] ∨ rd = x0 ∨ rd ∉ [sp, gp, tp] ∧ rs1 ∉ [sp, gp, tp] ∧ rs2 ∉ [sp, gp]
  | .opImm f rd rs1 _ => f ∉ [.andi, .ori, .xori] ∨ rd = x0 ∨ rd ∉ [sp, gp, tp] ∧ rs1 ∉ [sp, gp, tp]
  | .load f _ imm _   => f ∉ [.lh, .lhu] ∨ imm.toInt + 1 < 2048
  | .store f _ imm _  => f ≠ .sh ∨ imm.toInt + 1 < 2048
  | _                 => True

instance decidableExpandable : DecidablePred Expandable
  | .op .. | .opImm .. | .load .. | .store .. => inferInstanceAs <| Decidable (_ ∨ _)
  | .shift .. | .lui .. | .branch .. | .jal .. | .jalr .. => isTrue trivial

theorem logic_isSome : (logic lut rd rs1 rs2).isSome ↔
    rd = x0 ∨ rd ∉ [sp, gp, tp] ∧ rs1 ∉ [sp, gp, tp] ∧ rs2 ∉ [sp, gp] := by
  rw [logic]
  split_ifs
  all_goals
    simp only [Option.isSome_none, Option.isSome_some, List.mem_cons, List.not_mem_nil, or_false]
    tauto

theorem halfword_isSome {code : List Instr} : (halfword imm code).isSome ↔ imm.toInt + 1 < 2048 := by
  rw [halfword]
  split_ifs
  all_goals simp_all

theorem expand_isSome : (expand sym addr i l).isSome ↔ Expandable l := by
  cases l
  case op f rd rs1 rs2 =>
    cases f <;> simp [expand, expandOp, Expandable, InstReplace.and, InstReplace.or, InstReplace.xor, logic_isSome]
  case opImm f rd rs1 imm =>
    cases f <;> simp [expand, expandOpImm, Expandable, andi, ori, xori, InstReplace.and, InstReplace.or,
      InstReplace.xor, logic_isSome]
  case load f rd imm rs1 => cases f <;> simp [expand, expandLoad, Expandable, halfword_isSome]
  case store f rs2 imm rs1 => cases f <;> simp [expand, expandStore, Expandable, halfword_isSome]
  all_goals simp [expand, Expandable]

theorem expandLines_isSome : (expandLines sym addr i p).isSome ↔ ∀ l ∈ p, Expandable l := by
  induction p generalizing i
  case nil => simp [expandLines]
  case cons l p hi =>
    have hl : (expand sym addr i l).isSome ↔ Expandable l := expand_isSome
    rw [List.forall_mem_cons, ← hl, ← hi (i := i + 1), expandLines]
    simp only [Option.isSome_iff_exists, Option.bind_eq_some_iff, Option.map_eq_some_iff]
    constructor
    case mp =>
      rintro ⟨-, c, hc, c', hc', -⟩
      exact ⟨⟨c, hc⟩, c', hc'⟩
    case mpr =>
      rintro ⟨⟨c, hc⟩, c', hc'⟩
      exact ⟨_, c, hc, c', hc', rfl⟩

end Expandable

section Size

theorem length_slli_lt {n : Nat} (h : n < 16) : (slli rd rs1 n).length ≤ n + 1 := by
  rw [slli]
  split_ifs
  all_goals first | omega | simp

theorem length_slli {n : Nat} (h : n < 32) : (slli rd rs1 n).length ≤ 15 := by
  rw [slli]
  split_ifs
  case pos => simp
  case neg => simp
  case pos =>
    have : (slli rd rd (n - 24)).length ≤ _ := length_slli_lt (by omega)
    simp
    omega
  case pos =>
    have : (slli rd rd (n - 16)).length ≤ _ := length_slli_lt (by omega)
    simp [sh, getbyte]
    omega
  case neg =>
    simp
    omega

theorem length_branchResolve {target label : Word} {high : Bool} : (branchResolve target high label).length = 11 := by
  cases high <;> simp [branchResolve, la, slli]

theorem length_sltTemplate : (sltTemplate sym lut rd rs1 rs2).length = 54 := by
  simp [sltTemplate, msb, getbyte, slli, InstReplace.sub, InstReplace.not, la]

theorem length_equal : (equal sym rs1 rs2).length ≤ 54 := by
  rw [equal]
  split_ifs
  all_goals simp [seqz, seq, check8bit0, check8bitSame, la]

theorem length_checkNonPositive : (checkNonPositive sym rs2).length ≤ 54 := by
  simp [checkNonPositive, msb, getbyte, slli, la]

theorem length_shiftRight {n : ShiftAmount} {isArith : Bool} :
    (shiftRightTemplate sym rd rs1 n isArith).length ≤ 57 := by
  rw [shiftRightTemplate.eq_def]
  split
  case h_1 => cases isArith <;> simp [la, slli, getbyte]
  case h_2 =>
    cases n <;> cases isArith <;> simp [shiftRow, getshamt, getShiftByteInTp, la, slli]

theorem length_logic {code : List Instr} (h : logic lut rd rs1 rs2 = some code) : code.length ≤ 38 := by
  rw [logic] at h
  split_ifs at h
  all_goals cases h
  all_goals simp [logic8ByteInternal, la]

theorem length_logici {code : List Instr} (h : (logic lut rd rs1 rs2).map ([li tp imm] ++ ·) = some code) :
    code.length ≤ 39 := by
  obtain ⟨c, hc, rfl⟩ := Option.map_eq_some_iff.mp h
  have := length_logic hc
  simp
  omega

theorem length_branch {code : List Instr} {target label : Word} {high : Bool} (h : code.length ≤ 54) :
    (code ++ branchResolve target high label).length ≤ 65 := by
  rw [List.length_append, length_branchResolve]
  omega

theorem expand_length {code : List Instr} (h : expand sym addr i l = some code) : code.length ≤ 65 := by
  cases l
  all_goals rw [expand] at h
  case op f rd rs1 rs2 =>
    cases f
    case and => exact (length_logic h).trans (by decide)
    case or  => exact (length_logic h).trans (by decide)
    case xor => exact (length_logic h).trans (by decide)
    case srl => exact Option.some_inj.mp h ▸ length_shiftRight.trans (by decide)
    case sra => exact Option.some_inj.mp h ▸ length_shiftRight.trans (by decide)
    all_goals
      cases h
      simp [InstReplace.sub, InstReplace.not, sll, slt, sltu, length_sltTemplate, la, slli, sh, getbyte, getshamt,
        getShiftByteInTp]
  case opImm f rd rs1 imm =>
    cases f
    case andi => exact (length_logici h).trans (by decide)
    case ori  => exact (length_logici h).trans (by decide)
    case xori => exact (length_logici h).trans (by decide)
    all_goals
      cases h
      simp [slti, sltiu, slt, sltu, length_sltTemplate]
  case shift f rd rs1 n =>
    cases f
    all_goals cases h
    case slli => exact (length_slli n.isLt).trans (by decide)
    all_goals exact length_shiftRight.trans (by decide)
  case load f rd imm rs1 =>
    cases f
    case lh  =>
      have : (srai sym gp gp 16).length ≤ 57 := length_shiftRight
      rw [← (fits_of_halfword rs1 h).right, lh]
      simp only [List.length_append, List.length_cons, List.length_nil]
      omega
    case lhu => exact (fits_of_halfword rs1 h).right ▸ by simp [lhu]
    case lb  =>
      have : (srai sym rd rd 24).length ≤ 57 := length_shiftRight
      cases h
      rw [lb]
      simp only [List.length_append, List.length_cons, List.length_nil]
      omega
    all_goals
      cases h
      simp
  case store f rs2 imm rs1 =>
    cases f
    case sh => exact (fits_of_halfword rs1 h).right ▸ by simp [sh, getbyte]
    all_goals
      cases h
      simp
  case branch c rs1 rs2 t =>
    cases c
    all_goals cases h
    case eq => exact (congrArg List.length beq_eq).trans_le <| length_branch length_equal
    case ne => exact (congrArg List.length bne_eq).trans_le <| length_branch length_equal
    case lt =>
      rw [expandBranch, blt]
      split_ifs
      case pos => exact length_branch <| by simp [msb, getbyte, slli]
      case pos => exact length_branch length_checkNonPositive
      case neg => exact length_branch length_sltTemplate.le
    case ge =>
      rw [expandBranch, bge]
      split_ifs
      case pos => exact length_branch length_checkNonPositive
      case neg => exact length_branch length_sltTemplate.le
    all_goals exact length_branch length_sltTemplate.le
  case jal rd t =>
    cases h
    rw [jal]
    split <;> simp [j, callTemplate, la]
  all_goals
    cases h
    simp

theorem expandLines_length_le {code : List Instr} (h : expandLines sym addr i p = some code) :
    code.length ≤ 65 * p.length := by
  induction p generalizing i code
  case nil =>
    cases h
    simp
  case cons l p hi =>
    obtain ⟨c, hc, hm⟩ := Option.bind_eq_some_iff.mp h
    obtain ⟨c', hc', rfl⟩ := Option.map_eq_some_iff.mp hm
    have hl := expand_length hc
    have hp := hi hc'
    rw [List.length_append, List.length_cons]
    omega

-- A program grows 65 times at most.
theorem exists_compile (h : ∀ l ∈ p, Expandable l) :
    ∃ code, compile sym base p = some code ∧ code.length ≤ 65 * p.length := by
  have ⟨code, hc⟩ : ∃ code, compile sym base p = some code :=
    Option.isSome_iff_exists.mp <| expandLines_isSome.mpr h
  exact ⟨code, hc, expandLines_length_le hc⟩

end Size

end InstReplace
