import Mathlib.Data.Set.BooleanAlgebra
import Mathlib.Order.CompletePartialOrder
import Ysyx.Minirv.Lut
import Ysyx.Minirv.Scratch

open Rv32 State InstReplace BitVec

namespace InstReplace

variable {sym : Symbols} {s s' : State} {W : List Reg} {V : List (Fin 8)} {M : Set Word}

-- The tables are loaded and the scratch area is free of them.
structure Symbols.Ready (sym : Symbols) (s : State) : Prop where
  loaded : ∀ o ∈ sym.rodata, s.mem.Holds o.fst o.snd
  free   : ∀ o ∈ sym.rodata, Disjoint (Memory.region o.fst o.snd.length) (scratch (s.reg sp))

namespace Symbols.Ready

theorem within (r : sym.Ready s) (w : Within W V M s s') (h : sp ∉ W := by simp)
    (hm : ∀ o ∈ sym.rodata, Disjoint (Memory.region o.fst o.snd.length) M := by simp) : sym.Ready s' where
  loaded o ho := by
    refine (r.loaded o ho).congr fun a ha => w.mem a ?_ ?_
    case refine_1 => exact Set.disjoint_left.mp (hm o ho) ha
    case refine_2 => exact Set.disjoint_left.mp (r.free o ho) ha
  free o ho := w.reg sp h ▸ r.free o ho

theorem sameResult (r : sym.Ready s) : s.mem.Holds sym.sameResultTable Rodata.sameResultTable :=
  r.loaded (_, Rodata.sameResultTable) (by simp [rodata])

theorem check8bit0 (r : sym.Ready s) : s.mem.Holds sym.check8bit0Table Rodata.check8bit0Table :=
  r.loaded (_, Rodata.check8bit0Table) (by simp [rodata])

theorem slt1 (r : sym.Ready s) : s.mem.Holds sym.slt1Table Rodata.slt1Table :=
  r.loaded (_, Rodata.slt1Table) (by simp [rodata])

theorem sltu1 (r : sym.Ready s) : s.mem.Holds sym.sltu1Table Rodata.sltu1Table :=
  r.loaded (_, Rodata.sltu1Table) (by simp [rodata])

theorem or1 (r : sym.Ready s) : s.mem.Holds sym.or1Table Rodata.or1Table :=
  r.loaded (_, Rodata.or1Table) (by simp [rodata])

theorem tables (r : sym.Ready s) : sym.Tables s.mem :=
  tables_of_lutBin <| r.loaded (_, lutBin) (by simp [rodata])

end Symbols.Ready

section Not

variable {rd rs1 r : Reg} {b : Fin 4}

-- The part of `not` that complements byte `b`.
def notByte (b : Fin 4) : List Instr :=
  [lbu gp (spVarByte varC b), .add gp gp tp, lbu gp (at0 gp), sb gp (spVarByte varD b)]

@[simp] theorem within_notByte (h : sp ∉ W) (hg : gp ∈ W) (hv : varD ∈ V) :
    Within W V M s (s'.run (notByte b)) ↔ Within W V M s s' := by
  simp_all [notByte]

theorem xor8_complement (r : sym.Ready s) (b : Byte) :
    s.mem (b.setWidth 32 + (sym.xor8Table + 0xff00#32)) = ~~~b := by
  have h := byteEntry r.tables.xor8 (j := 0xff) (by decide) b.isLt
  have hx : ∀ b : Byte, (xor8 0xff b.toNat).byte 0 = ~~~b := by decide
  rw [BitVec.add_comm, ← hx, ← h, BitVec.ofNat_toNat]
  rfl

theorem var_notByte (r : sym.Ready s) (h : s.reg tp = sym.xor8Table + 0xff00#32) :
    (s.run (notByte b)).var varD = (s.var varD).setByte b (~~~(s.var varC).byte b) := by
  simp [notByte, h, xor8_complement r]

theorem var_notBytes (r : sym.Ready s) (h : s.reg tp = sym.xor8Table + 0xff00#32) :
    (s.run (notByte 3 ++ notByte 2 ++ notByte 1 ++ notByte 0)).var varD = ~~~s.var varC := by
  -- Every block finds the tables, the table address and the operand as the first one does.
  have step {s s' : State} {b : Fin 4} (w : Within [gp] [varD] ∅ s s') (r : sym.Ready s)
      (h : s.reg tp = sym.xor8Table + 0xff00#32) : (s'.run (notByte b)).var varD =
        (s'.var varD).setByte b (~~~(s.var varC).byte b) := by
    rw [var_notByte (r.within w) (w.reg tp (by simp) ▸ h), w.var varC (by simp)]
  simp only [run_append]
  rw [step (s := s) (by simp) r h, step (s := s) (by simp) r h, step (s := s) (by simp) r h, var_notByte r h]
  refine eq_of_byte fun i hi => ?_
  rw [byte_not hi]
  simp only [byte_setByte hi]
  obtain rfl | rfl | rfl | rfl : i = 0 ∨ i = 1 ∨ i = 2 ∨ i = 3 := by omega
  all_goals simp

theorem not_eq : InstReplace.not sym rd rs1 =
    ([push gp 3, sw rs1 (spVar varC)] ++ la tp (sym.xor8Table + BitVec.ofNat 32 (0xff <<< 8))) ++
    (notByte 3 ++ notByte 2 ++ notByte 1 ++ notByte 0) ++ [pop gp 3, lw rd (spVar varD)] :=
  rfl

theorem run_not (r : sym.Ready s) :
    s.Computes (InstReplace.not sym rd rs1) [tp] [3, varC, varD] rd (~~~s.reg rs1) := by
  rw [Computes, not_eq, run_append, run_append]
  obtain ⟨s₁, h₁⟩ : ∃ s₁, s.run ([push gp 3, sw rs1 (spVar varC)] ++
    la tp (sym.xor8Table + BitVec.ofNat 32 (0xff <<< 8))) = s₁ := ⟨_, rfl⟩
  obtain ⟨s₂, h₂⟩ : ∃ s₂, s₁.run (notByte 3 ++ notByte 2 ++ notByte 1 ++ notByte 0) = s₂ := ⟨_, rfl⟩
  have w₁ : Within [tp] [3, varC] ∅ s s₁ := by simp [← h₁]
  have w₂ : Within [gp] [varD] ∅ s₁ s₂ := by simp [← h₂]
  have hd : s₂.var varD = ~~~s.reg rs1 := by
    rw [← h₂, var_notBytes (r.within w₁) (by simp [← h₁])]
    simp [← h₁]
  have hg : s₂.var 3 = s.reg gp := by
    rw [w₂.var 3 (by simp)]
    simp [← h₁]
  refine ⟨(s₂.setReg gp (s₂.var 3)).next.next, ?_, by rw [h₁, h₂]; simp [← hd, next_setReg]⟩
  simp only [Within.next_iff]
  exact Within.restore (w₁.mono.trans w₂.mono) (by simp) hg

end Not

theorem run_sub {rd rs1 rs2 : Reg} (r : sym.Ready s) (h : rs1 ≠ tp) :
    s.Computes (InstReplace.sub sym rd rs1 rs2) [tp] [3, varC, varD] rd (s.reg rs1 - s.reg rs2) := by
  have ⟨s', w, e⟩ : s.Computes (InstReplace.not sym tp rs2) _ _ tp (~~~s.reg rs2) := run_not r
  refine ⟨(s'.setReg tp (~~~s.reg rs2)).next.next, by simpa using w, ?_⟩
  have hv : s.reg rs1 + ~~~s.reg rs2 + 1 = s.reg rs1 - s.reg rs2 := by
    rw [BitVec.add_assoc, BitVec.sub_eq_add_neg, BitVec.neg_eq_not_add]
    rfl
  by_cases hr : rd = 0
  case pos => simp [InstReplace.sub, e, hr, setReg]
  case neg => simp [InstReplace.sub, e, hr, h, w.reg rs1 (by simpa using h), next_setReg, setReg_setReg, ← hv]

end InstReplace
