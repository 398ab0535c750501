import Ysyx.Minirv.Theorems.Compile

-- Routines that work on registers only, and the calls of them.

open Rv32 State InstReplace
open Rv32.Asm (Line)

namespace InstReplace

variable {sym : Symbols} {s s' t : State} {addr : Nat → Word} {i : Nat} {l : Line Nat} {D : Set Word}

section Quiet

-- Lines that access no memory and keep sp.
def Quiet : Line Nat → Prop
  | .load .. | .store .. => False
  | .branch ..           => True
  | .op _ rd _ _ | .opImm _ rd _ _ | .shift _ rd _ _ | .lui rd _ | .jal rd _ | .jalr rd _ _ => rd ≠ sp

instance : DecidablePred Quiet
  | .load .. | .store .. => isFalse id
  | .branch ..           => isTrue trivial
  | .op .. | .opImm .. | .shift .. | .lui .. | .jal .. | .jalr .. => inferInstanceAs <| Decidable (_ ≠ _)

theorem Quiet.reads (h : Quiet l) : l.reads s = ∅ := by
  cases l <;> first | rfl | cases h

theorem Quiet.writes (h : Quiet l) : l.writes s = ∅ := by
  cases l <;> first | rfl | cases h

theorem Quiet.exec_sp (h : Quiet l) : (l.exec addr i s).reg sp = s.reg sp := by
  cases l
  case load => cases h
  case store => cases h
  case branch => rfl
  all_goals
    simp only [Quiet] at h
    simp [Line.exec, Ne.symm h]

variable {p : List (Line Nat)}

theorem exists_of_step (h : Asm.step p addr s = some s') :
    ∃ i l, s.pc = addr i ∧ p[i]? = some l ∧ s' = l.exec addr i s := by
  obtain ⟨i, hi, hm⟩ := Option.bind_eq_some_iff.mp h
  obtain ⟨l, hl, rfl⟩ := Option.map_eq_some_iff.mp hm
  have hp : addr i = s.pc := by simpa using List.find?_some hi
  exact ⟨i, l, hp.symm, hl, rfl⟩

-- A routine that works on registers only may always run.
theorem run_of_reaches (hq : ∀ l ∈ p, Quiet l) (hr : Asm.Reaches p addr s s')
    (ho : ∀ o ∈ sym.rodata, Disjoint (Memory.region o.fst o.snd.length) (scratch (s.reg sp)))
    (hf : sym.ArrayFree s) : ∃ D', Run sym p addr s D s' D' ∧ D' ⊆ D ∪ hidden sym s := by
  have hi : ∃ D', Run sym p addr s D s' D' ∧ D' ⊆ D ∪ hidden sym s ∧ s'.reg sp = s.reg sp := by
    induction hr
    case refl => exact ⟨D, .refl, Set.subset_union_left, rfl⟩
    case tail s₁ s₂ hr hs hi =>
      obtain ⟨D', hr', hd, hsp⟩ := hi
      obtain ⟨i, l, hp, hl, rfl⟩ := exists_of_step hs
      have hl' := hq l (List.mem_of_getElem? hl)
      have hh : hidden sym s₁ = hidden sym s := by rw [hidden, hsp, hidden]
      have ha : Safe sym D' s₁ l := by
        refine ⟨hsp ▸ ho, ⟨hsp ▸ hf.scratch, hf.rodata⟩, ?_, ?_, fun o _ => ?_⟩
        case refine_1 => simp [hl'.reads]
        all_goals simp [hl'.writes]
      refine ⟨_, hr'.step hp hl ha, ?_, hl'.exec_sp.trans hsp⟩
      rw [hl'.writes, Set.sdiff_empty, hh]
      exact Set.union_subset hd Set.subset_union_right
  obtain ⟨D', hr', hd, -⟩ := hi
  exact ⟨D', hr', hd⟩

end Quiet

section Placed

variable {p : List (Line Nat)} {base : Word} {code : List Instr} {rd rs1 rs2 : Reg}

-- The lines that have no expansion: bitwise operations and shifts that have no effect.
def Skipped : Line Nat → Prop
  | .op f rd _ _       => f ∈ [.and, .or, .xor] ∧ rd = x0
  | .shift f rd rs1 n  => f = .slli ∧ n = 0 ∧ rd = rs1
  | _                  => False

instance : DecidablePred Skipped
  | .op .. | .shift .. => inferInstanceAs <| Decidable (_ ∧ _)
  | .opImm .. | .lui .. | .load .. | .store .. | .branch .. | .jal .. | .jalr .. => isFalse id

theorem slli_ne_nil {n : Nat} (h : n ≠ 0 ∨ rd ≠ rs1) : slli rd rs1 n ≠ [] := by
  rw [slli]
  split
  case isTrue hn => simp [h.resolve_left (not_not.mpr hn)]
  case isFalse => split <;> [skip; split] <;> simp

theorem shiftRightTemplate_ne_nil {n : Nat} {isArith : Bool} : shiftRightTemplate sym rd rs1 (.imm n) isArith ≠ [] := by
  by_cases h : n = 24
  case pos => cases isArith <;> simp [h, shiftRightTemplate, getbyte]
  case neg => simp [shiftRightTemplate, h]

theorem logic_ne_nil {lut : Word} (hc : logic lut rd rs1 rs2 = some code) (h : rd ≠ x0) : code ≠ [] := by
  rw [logic_eq (logicArgs_of_logic hc h)] at hc
  cases hc
  simp [logicLoad]

theorem expand_ne_nil (hc : expand sym addr i l = some code) (h : ¬Skipped l) : code ≠ [] := by
  cases l
  all_goals rw [expand] at hc
  case op f rd rs1 rs2 =>
    cases f
    case and => exact logic_ne_nil hc fun he => h ⟨by simp, he⟩
    case or  => exact logic_ne_nil hc fun he => h ⟨by simp, he⟩
    case xor => exact logic_ne_nil hc fun he => h ⟨by simp, he⟩
    case srl => exact Option.some_inj.mp hc ▸ by simp [srl, shiftRightTemplate]
    case sra => exact Option.some_inj.mp hc ▸ by simp [sra, shiftRightTemplate]
    all_goals
      cases hc
      simp [InstReplace.sub, sll, slt, sltu, sltTemplate]
  case opImm f rd rs1 imm =>
    cases f
    case addi => cases hc; simp
    case slti => cases hc; simp [slti]
    case sltiu => cases hc; simp [sltiu]
    all_goals
      obtain ⟨c, -, rfl⟩ := Option.map_eq_some_iff.mp hc
      simp
  case shift f rd rs1 n =>
    cases f
    all_goals cases hc
    case slli =>
      refine slli_ne_nil ?_
      by_cases hn : n = 0
      case pos => exact .inr fun he => h ⟨rfl, hn, he⟩
      case neg => exact .inl fun he => hn <| BitVec.eq_of_toNat_eq he
    all_goals exact shiftRightTemplate_ne_nil
  case load f rd imm rs1 =>
    cases f
    case lh  => exact (fits_of_halfword rs1 hc).right ▸ by simp [lh]
    case lhu => exact (fits_of_halfword rs1 hc).right ▸ by simp [lhu]
    all_goals
      cases hc
      simp [lb]
  case store f rs2 imm rs1 =>
    cases f
    case sh => exact (fits_of_halfword rs1 hc).right ▸ by simp [sh]
    all_goals
      cases hc
      simp
  case branch c rs1 rs2 t =>
    have hb : ∀ (c : List Instr) target high label, c ++ branchResolve target high label ≠ [] := by
      intro c target high label
      simp [branchResolve]
    cases c
    all_goals cases hc
    case eq => rw [expandBranch, beq_eq]; exact hb _ _ _ _
    case ne => rw [expandBranch, bne_eq]; exact hb _ _ _ _
    case lt => rw [expandBranch, blt]; split <;> [skip; split] <;> exact hb _ _ _ _
    case ge => rw [expandBranch, bge]; split <;> exact hb _ _ _ _
    all_goals exact hb _ _ _ _
  case jal rd t =>
    cases hc
    rw [jal]
    split <;> simp [j, callTemplate]
  all_goals
    cases hc
    simp

theorem expandLines_length (h : expandLines sym addr i p = some code) : code.length = offset sym p p.length := by
  induction p generalizing i code
  case nil =>
    cases h
    rfl
  case cons l p hi =>
    obtain ⟨c, hc, hm⟩ := Option.bind_eq_some_iff.mp h
    obtain ⟨c', hc', rfl⟩ := Option.map_eq_some_iff.mp hm
    rw [List.length_append, size_expand hc, hi hc']
    simp [offset]

theorem offset_strictMono (hp : ∀ l ∈ p, 0 < size sym l) {i j : Nat} (h : i < j) (hj : j ≤ p.length) :
    offset sym p i < offset sym p j := by
  induction j, h using Nat.le_induction
  case base =>
    rw [offset_succ (List.getElem?_eq_getElem hj)]
    exact Nat.lt_add_of_pos_right <| hp _ <| List.getElem_mem _
  case succ j h hi =>
    rw [offset_succ (List.getElem?_eq_getElem hj)]
    exact (hi (by omega)).trans_le (Nat.le_add_right ..)

-- The addresses of a compiled program tell its lines apart.
theorem placed_of_compile (hc : compile sym base p = some code) (hb : base.toNat % 2 = 0)
    (hn : base.toNat + 4 * code.length < 2 ^ 32) (hs : ∀ l ∈ p, ¬Skipped l) : Asm.Placed p (layout sym base p) := by
  have hp : ∀ l ∈ p, 0 < size sym l := by
    intro l hl
    obtain ⟨k, hk⟩ := List.getElem?_of_mem hl
    have ⟨fetch, hf⟩ : ∃ fetch, CodeAt fetch base code := exists_codeAt base (by omega)
    obtain ⟨c, hx, -⟩ := expandLines_codeAt hc hf hk
    rw [← size_expand hx]
    exact List.length_pos_of_ne_nil <| expand_ne_nil hx (hs l hl)
  have ho : ∀ i ≤ p.length, offset sym p i ≤ code.length := by
    intro i hi
    rw [expandLines_length hc]
    obtain rfl | hi := Nat.eq_or_lt_of_le hi
    case inl => exact le_rfl
    case inr => exact (offset_strictMono hp hi le_rfl).le
  refine ⟨fun i hi j hj he => ?inj, fun i _ => Asm.and_not_one <| layout_even hb i⟩
  have hi' := ho i hi.le
  have hj' := ho j hj.le
  have he' : offset sym p i = offset sym p j := by
    rw [layout, layout] at he
    bv_omega
  obtain h | h | h := Nat.lt_trichotomy i j
  case inl => exact absurd he' (offset_strictMono hp h hj.le).ne
  case inr.inl => exact h
  case inr.inr => exact absurd he'.symm (offset_strictMono hp h hi.le).ne

end Placed

section Routine

-- A routine that has been compiled comes back to its caller. Beyond the registers `W` it may change gp and tp, and the
-- memory that the expansions use.
structure Returned (sym : Symbols) (W : List Reg) (t t' : State) : Prop where
  pc  : t'.pc = t.reg Asm.ra &&& ~~~1
  reg : ∀ r ∉ gp :: tp :: W, t'.reg r = t.reg r
  mem : ∀ a ∉ hidden sym t, t'.mem a = t.mem a

theorem returned_of_returns {fetch : Word → Option Instr} {code : List Instr} {W : List Reg} {s' t : State}
    (hc : compile sym base p = some code) (hb : base.toNat % 2 = 0) (hf : CodeAt fetch base code)
    (ha : ∀ l ∈ p, Accepted l) (hq : ∀ l ∈ p, Quiet l) (r : sym.Ready t) (f : sym.ArrayFree t)
    (h : Asm.Returns p (layout sym base p) W t s') :
    ∃ n t', steps fetch n t = some t' ∧ Returned sym W t t' ∧ ∀ r ∉ [gp, tp], t'.reg r = s'.reg r := by
  have hg : Agrees ∅ t t := ⟨rfl, fun _ _ => rfl, fun _ _ => rfl⟩
  obtain ⟨D', hr, hd⟩ := run_of_reaches (D := ∅) hq h.reaches r.free f
  obtain ⟨n, t', hn, -, ha⟩ := hr.simulated (expanded_of_compile hc hf) (layout_even hb) ha hg r.loaded
  refine ⟨n, t', hn, ⟨ha.pc.trans h.pc, fun r hr => ?reg, fun a hm => ?mem⟩, ha.reg⟩
  case reg =>
    simp only [List.mem_cons, not_or] at hr
    exact (ha.reg r (by simp [hr])).trans <| h.changes.reg r hr.right.right
  case mem =>
    have hm' : a ∉ D' := fun hx => (hd hx).elim id hm
    rw [ha.mem a hm', h.changes.mem]

end Routine
end InstReplace
