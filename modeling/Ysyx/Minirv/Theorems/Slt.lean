import Ysyx.Minirv.Layout
import Ysyx.Minirv.Theorems.Slli

open Rv32 State InstReplace BitVec

namespace InstReplace

variable {sym : Symbols} {s s' : State} {rd rs1 rs2 : Reg} {W : List Reg} {V : List (Fin 8)} {M : Set Word}

-- The word that a comparison leaves in its destination.
def bit (b : Bool) : Word :=
  if b then 1 else 0

theorem setWidth_bit {b : Bool} : ((bit b).setWidth 8).setWidth 32 = bit b := by
  cases b <;> rfl

theorem ushiftRight_31 {v : Word} : v >>> 31 = bit v.msb := by
  simp only [bit, BitVec.msb_eq_decide]
  apply BitVec.eq_of_toNat_eq
  by_cases h : 2147483648 ≤ v.toNat
  all_goals
    simp [Nat.shiftRight_eq_div_pow, h]
    omega

-- The comparisons in terms of the signs of `a`, `b` and `a - b`.
def sltSign (x y z : Bool) : Bool :=
  x && !y || (x == y) && z

def sltuSign (x y z : Bool) : Bool :=
  !x && y || (x == y) && z

theorem slt_eq_sign {a b : Word} : a.slt b = sltSign a.msb b.msb (a - b).msb := by
  rw [BitVec.slt_eq_decide, Bool.eq_iff_iff]
  simp only [sltSign, BitVec.msb_eq_decide, BitVec.toInt_eq_toNat_cond]
  simp [BitVec.toNat_sub]
  omega

theorem ult_eq_sign {a b : Word} : a.ult b = sltuSign a.msb b.msb (a - b).msb := by
  rw [BitVec.ult, Bool.eq_iff_iff]
  simp only [sltuSign, BitVec.msb_eq_decide]
  simp [BitVec.toNat_sub]
  omega

section Msb

theorem byte_doubled {v : Word} : (((((v.byte 3).setWidth 32) <<< 1).byte 1).setWidth 32 : Word) = bit v.msb := by
  rw [← ushiftRight_31]
  ext j hj
  by_cases h : j = 0
  case pos => simp [h, ← BitVec.getLsbD_eq_getElem]
  case neg =>
    have : ¬7 + j < 8 := by omega
    simp [this, BitVec.getLsbD_of_ge v (31 + j) (by omega)]

theorem within_run_msb (h : rd ∈ W) (hs : sp ∉ W) (hv : varC ∈ V) :
    Within W V M s (s'.run (msb rd rs1)) ↔ Within W V M s s' := by
  simp_all [msb]

theorem reg_run_msb (h : rd ≠ 0) : (s.run (msb rd rs1)).reg rd = bit (s.reg rs1).msb := by
  simp [msb, h, byte_doubled]

end Msb

section Slt

variable {lut : Word} {bs : List Byte}

-- The parts of `sltTemplate`: the operands are moved to s0 and s1, the index of the table entry is
-- computed in gp, and the entry is loaded.
def sltLoad (rs1 rs2 : Reg) : List Instr :=
  [push s0 1, push s1 2, sw rs2 (spVar varA), mv s0 rs1, lw s1 (spVar varA)]

def sltSignA : List Instr :=
  msb gp s0 ++ slli gp gp 1

def sltSignB : List Instr :=
  msb tp s1 ++ [.add gp gp tp] ++ slli gp gp 1

def sltSignDiff (sym : Symbols) : List Instr :=
  InstReplace.sub sym tp s0 s1 ++ msb tp tp ++ [.add gp gp tp]

def sltSigns (sym : Symbols) : List Instr :=
  sltSignA ++ sltSignB ++ sltSignDiff sym

def sltLookup (lut : Word) (rd : Reg) : List Instr :=
  la tp lut ++ [.add tp tp gp, pop s1 2, pop s0 1, lbu rd (at0 tp)]

theorem sltTemplate_eq :
    sltTemplate sym lut rd rs1 rs2 = sltLoad rs1 rs2 ++ sltSigns sym ++ sltLookup lut rd := by
  simp [sltTemplate, sltLoad, sltSigns, sltSignA, sltSignB, sltSignDiff, sltLookup]

-- The index of the entry for the operands `a` and `b`.
def sltIndex (a b : Word) : Word :=
  (bit a.msb <<< 1 + bit b.msb) <<< 1 + bit (a - b).msb

theorem sltSignA_spec : Within [gp, tp] [3, varC, varD] ∅ s (s.run sltSignA) ∧
    (s.run sltSignA).reg gp = bit (s.reg s0).msb <<< 1 := by
  simp [sltSignA, within_run_msb, reg_run_msb]

theorem sltSignB_spec : Within [gp, tp] [3, varC, varD] ∅ s (s.run sltSignB) ∧
    (s.run sltSignB).reg gp = (s.reg gp + bit (s.reg s1).msb) <<< 1 := by
  have w : Within [tp] [varC] ∅ s (s.run (msb tp s1)) := by simp [within_run_msb]
  have hg := w.reg gp (by simp)
  simp_all [sltSignB, within_run_msb, reg_run_msb]

theorem sltSignDiff_spec (r : sym.Ready s) : Within [gp, tp] [3, varC, varD] ∅ s (s.run (sltSignDiff sym)) ∧
    (s.run (sltSignDiff sym)).reg gp = s.reg gp + bit (s.reg s0 - s.reg s1).msb := by
  have c : s.Computes (InstReplace.sub sym tp s0 s1) _ _ tp (s.reg s0 - s.reg s1) := run_sub r (by simp)
  have w₁ := c.within (M := ∅) (by simp) (by simp)
  have ht := c.reg (by simp)
  have w₂ : Within [tp] [varC] ∅ (s.run (InstReplace.sub sym tp s0 s1))
      ((s.run (InstReplace.sub sym tp s0 s1)).run (msb tp tp)) := by simp [within_run_msb]
  have hg := (w₂.reg gp (by simp)).trans (w₁.reg gp (by simp))
  simp only [sltSignDiff, run_append]
  refine ⟨?within, ?reg⟩
  case within => simpa [within_run_msb] using w₁.mono
  case reg => simp_all [reg_run_msb]

theorem sltSigns_spec (r : sym.Ready s) : Within [gp, tp] [3, varC, varD] ∅ s (s.run (sltSigns sym)) ∧
    (s.run (sltSigns sym)).reg gp = sltIndex (s.reg s0) (s.reg s1) := by
  have ⟨w₁, h₁⟩ := sltSignA_spec (s := s)
  have ⟨w₂, h₂⟩ := sltSignB_spec (s := s.run sltSignA)
  have w := w₁.trans w₂
  have ⟨w₃, h₃⟩ := sltSignDiff_spec (r.within w)
  simp only [sltSigns, run_append]
  refine ⟨w.trans w₃, ?_⟩
  rw [h₃, h₂, h₁, sltIndex, w.reg s0 (by simp), w.reg s1 (by simp), w₁.reg s1 (by simp)]

-- A table with the entries of `f`, indexed by the signs.
def SltTable (m : Memory 32) (lut : Word) (f : Word → Word → Bool) : Prop :=
  ∀ a b, (m (lut + sltIndex a b)).setWidth 32 = bit (f a b)

-- The eight entries are the values of `g` for the signs of the operands and of their difference.
theorem sltTable_of_signs {m : Memory 32} {f : Word → Word → Bool} {g : Bool → Bool → Bool → Bool}
    (h : m.Holds lut bs) (hf : ∀ a b, f a b = g a.msb b.msb (a - b).msb)
    (hg : ∀ x y z, bs[4 * x.toNat + 2 * y.toNat + z.toNat]? = some ((bit (g x y z)).setWidth 8)) :
    SltTable m lut f := by
  intro a b
  have hi : sltIndex a b = BitVec.ofNat 32 (4 * a.msb.toNat + 2 * b.msb.toNat + (a - b).msb.toNat) := by
    rw [sltIndex]
    generalize a.msb = x, b.msb = y, (a - b).msb = z
    revert x y z
    decide
  rw [hi, h _ _ (hg ..), hf, setWidth_bit]

theorem slt1Table_entries (r : sym.Ready s) : SltTable s.mem sym.slt1Table BitVec.slt :=
  sltTable_of_signs r.slt1 (g := sltSign) (fun _ _ => slt_eq_sign) (by decide)

theorem sltu1Table_entries (r : sym.Ready s) : SltTable s.mem sym.sltu1Table BitVec.ult :=
  sltTable_of_signs r.sltu1 (g := sltuSign) (fun _ _ => ult_eq_sign) (by decide)

theorem sltLoad_spec (s : State) (rs1 rs2 : Reg) : Within [s0, s1] [1, 2, varA] ∅ s (s.run (sltLoad rs1 rs2)) ∧
    (s.run (sltLoad rs1 rs2)).reg s0 = s.reg rs1 ∧ (s.run (sltLoad rs1 rs2)).reg s1 = s.reg rs2 ∧
    (s.run (sltLoad rs1 rs2)).var 1 = s.reg s0 ∧ (s.run (sltLoad rs1 rs2)).var 2 = s.reg s1 := by
  simp [sltLoad]

theorem run_sltTemplate {f : Word → Word → Bool} (r : sym.Ready s)
    (ht : ∀ s, sym.Ready s → SltTable s.mem lut f) : s.Computes (sltTemplate sym lut rd rs1 rs2) [gp, tp]
      [1, 2, 3, varA, varC, varD] rd (bit <| f (s.reg rs1) (s.reg rs2)) := by
  have ⟨w₁, ha, hb, h0, h1⟩ := sltLoad_spec s rs1 rs2
  have ⟨w₂, hg⟩ := sltSigns_spec (r.within w₁)
  rw [Computes, sltTemplate_eq, run_append, run_append]
  generalize s.run (sltLoad rs1 rs2) = s₁ at *
  generalize s₁.run (sltSigns sym) = s₂ at *
  have w : Within [s0, s1, gp, tp] [1, 2, 3, varA, varC, varD] ∅ s s₂ := w₁.mono.trans w₂.mono
  have ht := ht s₂ (r.within w) (s.reg rs1) (s.reg rs2)
  rw [ha, hb] at hg
  rw [← w₂.var 1 (by simp)] at h0
  rw [← w₂.var 2 (by simp)] at h1
  -- The entry is loaded last, after s0 and s1 have got their old values back.
  refine ⟨(((s₂.setReg tp (lut + s₂.reg gp)).setReg s1 (s₂.var 2)).setReg s0
    (s₂.var 1)).next.next.next.next.next.next, ?_, ?_⟩
  case refine_1 =>
    simp only [Within.next_iff]
    refine Within.restore (Within.restore ?_ (by simp) h1) (by simp) h0
    simpa using w.mono
  case refine_2 => simp [sltLookup, next_setReg, setReg_setReg, hg, ht]

theorem run_slt (r : sym.Ready s) : s.Computes (slt sym rd rs1 rs2) [gp, tp] [1, 2, 3, varA, varC, varD] rd
    (bit <| (s.reg rs1).slt (s.reg rs2)) :=
  run_sltTemplate r fun _ => slt1Table_entries

theorem run_sltu (r : sym.Ready s) : s.Computes (sltu sym rd rs1 rs2) [gp, tp] [1, 2, 3, varA, varC, varD] rd
    (bit <| (s.reg rs1).ult (s.reg rs2)) :=
  run_sltTemplate r fun _ => sltu1Table_entries

end Slt

section Correct

variable {imm : BitVec 12} {lut : Word}

theorem straight_sub : Straight (InstReplace.sub sym rd rs1 rs2) := by
  simp [InstReplace.sub, InstReplace.not]

theorem straight_msb : Straight (msb rd rs1) := by
  simp [msb]

theorem straight_sltTemplate : Straight (sltTemplate sym lut rd rs1 rs2) := by
  simp [sltTemplate, straight_msb, straight_sub]

theorem run_slti (r : sym.Ready s) (h : rs1 ≠ tp) : s.Computes (slti sym rd rs1 imm) [gp, tp]
    [1, 2, 3, varA, varC, varD] rd (bit <| (s.reg rs1).slt (imm.signExtend 32)) := by
  have w : Within [gp, tp] [1, 2, 3, varA, varC, varD] ∅ s (s.run [li tp imm]) := by simp
  have c : (s.run [li tp imm]).Computes (slt sym rd rs1 tp) _ _ _ _ := run_slt (r.within w)
  exact .prepend w <| by simpa [h] using c

theorem run_sltiu (r : sym.Ready s) (h : rs1 ≠ tp) : s.Computes (sltiu sym rd rs1 imm) [gp, tp]
    [1, 2, 3, varA, varC, varD] rd (bit <| (s.reg rs1).ult (imm.signExtend 32)) := by
  have w : Within [gp, tp] [1, 2, 3, varA, varC, varD] ∅ s (s.run [li tp imm]) := by simp
  have c : (s.run [li tp imm]).Computes (sltu sym rd rs1 tp) _ _ _ _ := run_sltu (r.within w)
  exact .prepend w <| by simpa [h] using c

theorem bit_slt {a b : Word} : bit (a.slt b) = if a.toInt < b.toInt then 1 else 0 := by
  simp [bit, BitVec.slt_eq_decide]

theorem bit_ult {a b : Word} : bit (a.ult b) = if a < b then 1 else 0 := by
  simp [bit, BitVec.ult, BitVec.lt_def]

-- The expansions of `sub`, `slt`, `sltu`, `slti` and `sltiu` have the effect of the instructions.
theorem arith_implements (r : sym.Ready s) (h : rs1 ≠ tp) :
    s.Implements (InstReplace.sub sym rd rs1 rs2) rd (s.reg rs1 - s.reg rs2) ∧
    s.Implements (slt sym rd rs1 rs2) rd (if (s.reg rs1).toInt < (s.reg rs2).toInt then 1 else 0) ∧
    s.Implements (sltu sym rd rs1 rs2) rd (if s.reg rs1 < s.reg rs2 then 1 else 0) ∧
    s.Implements (slti sym rd rs1 imm) rd (if (s.reg rs1).toInt < imm.toInt then 1 else 0) ∧
    s.Implements (sltiu sym rd rs1 imm) rd (if s.reg rs1 < imm.signExtend 32 then 1 else 0) := by
  have hi : (imm.signExtend 32).toInt = imm.toInt := BitVec.toInt_signExtend_of_le (by decide)
  have hs {lut rs2} : Straight ([li tp imm] ++ sltTemplate sym lut rd rs1 rs2) :=
    straight_append.mpr ⟨by simp, straight_sltTemplate⟩
  rw [← hi, ← bit_slt, ← bit_slt, ← bit_ult, ← bit_ult]
  refine ⟨?sub, ?slt, ?sltu, ?slti, ?sltiu⟩
  case sub   => exact (run_sub r h).implements straight_sub
  case slt   => exact (run_slt r).implements straight_sltTemplate
  case sltu  => exact (run_sltu r).implements straight_sltTemplate
  case slti  => exact (run_slti r h).implements hs
  case sltiu => exact (run_sltiu r h).implements hs

theorem arith_implements_loaded :
    let sym := Symbols.at 0x80100000
    let s := loaded 0x80100000 0x80200000
    s.Implements (InstReplace.sub sym sp 10 12) sp (-2) ∧ s.Implements (slt sym sp 10 12) sp 1 ∧
    s.Implements (sltu sym sp 10 12) sp 1 ∧ s.Implements (slti sym sp 10 (-1)) sp 0 ∧
    s.Implements (sltiu sym sp 10 (-1)) sp 1 :=
  arith_implements (ready_loaded (by decide)) (by decide)

end Correct

end InstReplace
