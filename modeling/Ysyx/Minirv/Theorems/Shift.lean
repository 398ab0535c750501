import Ysyx.Minirv.Layout
import Ysyx.Minirv.Theorems.Join
import Ysyx.Minirv.Theorems.Slli

open Rv32 State InstReplace BitVec

namespace InstReplace

variable {sym : Symbols} {s s' : State} {rd rs1 rs2 : Reg} {W : List Reg} {V : List (Fin 8)} {M : Set Word}
variable {m : Memory 32} {row : Word} {f : Byte → Word} {n : Nat} {k : Fin 4}

-- The words of a table row for the 256 values of a byte.
def Row (m : Memory 32) (row : Word) (f : Byte → Word) : Prop :=
  ∀ b : Byte, m.load32 (row + b.setWidth 32 <<< 2) = f b

theorem row_of_table {a : Word} {expr} (h : m.Holds a (genTable 32 256 4 expr)) (hn : n < 32) :
    Row m (a + BitVec.ofNat 32 (n <<< 10)) fun b => expr n b.toNat := by
  intro b
  have hb : b.setWidth 32 <<< 2 = BitVec.ofNat 32 (b.toNat <<< 2) := by
    revert b
    decide
  exact hb ▸ wordEntry h hn b.isLt

section Amount

def shamt (v : Word) : Byte :=
  v.byte 0 &&& 0x1f

theorem toNat_shamt {v : Word} : (shamt v).toNat = v.toNat % 32 := by
  have h : ∀ b : Byte, (b &&& 0x1f).toNat = b.toNat % 32 := by decide
  rw [shamt, h, toNat_byte]
  omega

theorem and8_shamt (r : sym.Ready s) (b : Byte) :
    s.mem (b.setWidth 32 + (sym.and8Table + 0x1f00#32)) = b &&& 0x1f := by
  have h := byteEntry r.tables.and8 (j := 0x1f) (by decide) b.isLt
  have hx : ∀ b : Byte, (and8 0x1f b.toNat).byte 0 = b &&& 0x1f := by decide
  rw [BitVec.add_comm, ← hx, ← h, BitVec.ofNat_toNat]
  rfl

theorem getshamt_spec (rs1 : Reg) (r : sym.Ready s) : Within [s0, tp] [varB] ∅ s (s.run (getshamt sym s0 rs1)) ∧
    (s.run (getshamt sym s0 rs1)).reg s0 = (shamt (s.reg rs1)).setWidth 32 := by
  have w : Within [s0, tp] [varB] ∅ s (s.run <| [sb rs1 (spVarByte varB 0), lbu s0 (spVarByte varB 0)] ++
      la tp (sym.and8Table + BitVec.ofNat 32 (0x1f <<< 8))) := by simp
  have hx := and8_shamt (r.within w) ((s.reg rs1).byte 0)
  simp_all [getshamt, byte_setByte, shamt]

-- The code that leaves the address of the row for the amount in `rs2` in s0.
def tableRow (sym : Symbols) (table : Word) (rs2 : Reg) : List Instr :=
  getshamt sym s0 rs2 ++ [sw x0 (spVar varB), sb s0 (spVarByte varB 1), lw s0 (spVar varB)] ++ slli s0 s0 2 ++
  la tp table ++ [.add s0 s0 tp]

theorem tableRow_spec (table : Word) (rs2 : Reg) (r : sym.Ready s) :
    Within [s0, tp] [varB] ∅ s (s.run (tableRow sym table rs2)) ∧
    (s.run (tableRow sym table rs2)).reg s0 = table + BitVec.ofNat 32 (((s.reg rs2).toNat % 32) <<< 10) := by
  have ⟨w, h⟩ := getshamt_spec rs2 r
  have hb : ∀ b : Byte, (0 : Word).setByte 1 b <<< 2 = BitVec.ofNat 32 (b.toNat <<< 10) := by decide
  refine ⟨by simpa [tableRow] using w, ?_⟩
  rw [← toNat_shamt, ← hb, BitVec.add_comm]
  simp [tableRow, h]

end Amount

section ShiftByte

-- The register s0 holds the address of a row with the words of `f`.
structure Points (sym : Symbols) (f : Byte → Word) (s : State) : Prop where
  ready : sym.Ready s
  row   : ∀ s', sym.Ready s' → s'.reg s0 = s.reg s0 → Row s'.mem (s'.reg s0) f

theorem Points.within (p : Points sym f s) (w : Within W V ∅ s s') (h : sp ∉ W ∧ s0 ∉ W := by simp) :
    Points sym f s' where
  ready := p.ready.within w h.left
  row s'' r e := p.row s'' r (e.trans <| w.reg s0 h.right)

theorem points_of_table {table : Word} {expr} (r : sym.Ready s)
    (ht : ∀ s, sym.Ready s → s.mem.Holds table (genTable 32 256 4 expr)) (h : n < 32)
    (ha : s.reg s0 = table + BitVec.ofNat 32 (n <<< 10)) (hf : ∀ b, f b = expr n b.toNat) : Points sym f s where
  ready := r
  row s' r' e b := by
    rw [e, ha, hf]
    exact row_of_table (ht s' r') h b

theorem getShiftByteInTp_spec (p : Points sym f s) : Within [tp] [] ∅ s (s.run (getShiftByteInTp s0 k)) ∧
    (s.run (getShiftByteInTp s0 k)).reg tp = f ((s.var varA).byte k) := by
  simp [getShiftByteInTp, p.row s p.ready rfl _]

end ShiftByte

section Sll

-- The blocks of `sll` that add the table entries for the four bytes of the operand in gp and tp.
def sllByte3 : List Instr :=
  [sw x0 (spVar varB)] ++ getShiftByteInTp s0 3 ++ [sb tp (spVarByte varB 3), lw gp (spVar varB)]

def sllByte2 : List Instr :=
  getShiftByteInTp s0 2 ++ sh tp (spVarByte varB 2) ++ [lw tp (spVar varB), .add gp gp tp]

def sllByte1 : List Instr :=
  getShiftByteInTp s0 1 ++ slli tp tp 8 ++ [.add gp gp tp]

def sllBytes : List Instr :=
  sllByte3 ++ sllByte2 ++ sllByte1 ++ getShiftByteInTp s0 0

theorem sll_eq : sll sym rd rs1 rs2 = [push s0 1, sw rs1 (spVar varA)] ++ tableRow sym sym.sll8Table rs2 ++
    sllBytes ++ [pop s0 1, .add rd gp tp] := by
  delta sll
  simp only [tableRow, sllBytes, sllByte3, sllByte2, sllByte1, List.append_assoc]

theorem sllByte3_spec (p : Points sym f s) : Within [gp, tp] [varB] ∅ s (s.run sllByte3) ∧
    (s.run sllByte3).reg gp = f ((s.var varA).byte 3) <<< 24 ∧
    (s.run sllByte3).var varB = f ((s.var varA).byte 3) <<< 24 := by
  have w : Within [tp] [varB] ∅ s (s.run [sw x0 (spVar varB)]) := by simp
  have ⟨w', h⟩ := getShiftByteInTp_spec (k := 3) (p.within w)
  have hv := w'.var varB (by simp)
  simp only [sllByte3, run_append]
  refine ⟨by simpa using w.mono.trans w'.mono, ?_⟩
  rw [shiftLeft_24_eq]
  simp_all

theorem sllByte2_spec (p : Points sym f s) (h₀ : (s.var varB).byte 0 = 0) (h₁ : (s.var varB).byte 1 = 0) :
    Within [gp, tp] [varB, varC] ∅ s (s.run sllByte2) ∧
    (s.run sllByte2).reg gp = s.reg gp + f ((s.var varA).byte 2) <<< 16 := by
  have ⟨w, h⟩ := getShiftByteInTp_spec (k := 2) p
  have hv := w.var varB (by simp)
  have hg := w.reg gp (by simp)
  have w' : Within [tp] [varB, varC] ∅ _ ((s.run (getShiftByteInTp s0 2)).run (sh tp (spVarByte varB 2))) :=
    (within_run_sh (by simp) (by simp) (by simp) (by simp) (by simp)).mpr .refl
  have hg' := w'.reg gp (by simp)
  simp only [sllByte2, run_append]
  refine ⟨by simpa using w.mono.trans w'.mono, ?_⟩
  rw [shiftLeft_16_eq h₀ h₁]
  simp_all [var_run_sh]

theorem sllByte1_spec (p : Points sym f s) : Within [gp, tp] [] ∅ s (s.run sllByte1) ∧
    (s.run sllByte1).reg gp = s.reg gp + f ((s.var varA).byte 1) <<< 8 := by
  have ⟨w, h⟩ := getShiftByteInTp_spec (k := 1) p
  have hg := w.reg gp (by simp)
  simp only [sllByte1, run_append]
  refine ⟨by simpa using w.mono, ?_⟩
  simp_all

theorem sllBytes_spec (p : Points sym f s) : Within [gp, tp] [varB, varC] ∅ s (s.run sllBytes) ∧
    (s.run sllBytes).reg gp + (s.run sllBytes).reg tp = f ((s.var varA).byte 3) <<< 24 +
      f ((s.var varA).byte 2) <<< 16 + f ((s.var varA).byte 1) <<< 8 + f ((s.var varA).byte 0) := by
  have ⟨w₁, hg₁, hb⟩ := sllByte3_spec p
  have p₁ := p.within w₁
  have ⟨w₂, hg₂⟩ := sllByte2_spec p₁ (by rw [hb, byte_shiftLeft (k := 3) (by simp)]; rfl)
    (by rw [hb, byte_shiftLeft (k := 3) (by simp)]; rfl)
  have p₂ := p₁.within w₂
  have ⟨w₃, hg₃⟩ := sllByte1_spec p₂
  have p₃ := p₂.within w₃
  have ⟨w₄, ht⟩ := getShiftByteInTp_spec (k := 0) p₃
  have ha₁ := w₁.var varA (by simp)
  have ha₂ := (w₂.var varA (by simp)).trans ha₁
  have ha₃ := (w₃.var varA (by simp)).trans ha₂
  simp only [sllBytes, run_append]
  refine ⟨(w₁.mono.trans w₂).trans (w₃.mono.trans w₄.mono), ?_⟩
  rw [w₄.reg gp (by simp), ht, ha₃, hg₃, ha₂, hg₂, ha₁, hg₁]
  rfl

theorem eq_sum_bytes {v : Word} : v = (v.byte 3).setWidth 32 <<< 24 + (v.byte 2).setWidth 32 <<< 16 +
    (v.byte 1).setWidth 32 <<< 8 + (v.byte 0).setWidth 32 := by
  apply BitVec.eq_of_toNat_eq
  have h := toNat_ofBytes (f := v.byte)
  rw [ofBytes_byte] at h
  simp [Nat.shiftLeft_eq]
  omega

theorem shiftLeft_comm {v : Word} {m : Nat} : v <<< n <<< m = v <<< m <<< n := by
  rw [← BitVec.shiftLeft_add, ← BitVec.shiftLeft_add, Nat.add_comm]

-- The sum may overflow: shifting is linear modulo 2 ^ 32.
theorem sum_shiftLeft {v : Word} : (v.byte 3).setWidth 32 <<< n <<< 24 + (v.byte 2).setWidth 32 <<< n <<< 16 +
    (v.byte 1).setWidth 32 <<< n <<< 8 + (v.byte 0).setWidth 32 <<< n = v <<< n := by
  conv => rhs; rw [eq_sum_bytes (v := v)]
  simp only [BitVec.shiftLeft_add_distrib, shiftLeft_comm (n := n)]

theorem run_sll (r : sym.Ready s) : s.Computes (sll sym rd rs1 rs2) [gp, tp] [1, varA, varB, varC] rd
    (s.reg rs1 <<< ((s.reg rs2).toNat % 32)) := by
  have w₁ : Within [] [1, varA] ∅ s (s.run [push s0 1, sw rs1 (spVar varA)]) := by simp
  have ha : (s.run [push s0 1, sw rs1 (spVar varA)]).var varA = s.reg rs1 := by simp
  have h0 : (s.run [push s0 1, sw rs1 (spVar varA)]).var 1 = s.reg s0 := by simp
  have h2 := w₁.reg rs2 (by simp)
  rw [Computes, sll_eq, run_append, run_append, run_append]
  generalize s.run [push s0 1, sw rs1 (spVar varA)] = s₁ at *
  obtain ⟨w₂, hr⟩ := tableRow_spec sym.sll8Table rs2 (r.within w₁)
  have r₂ := (r.within w₁).within w₂
  have ha₂ := w₂.var varA (by simp)
  generalize s₁.run (tableRow sym sym.sll8Table rs2) = s₂ at *
  have p := points_of_table r₂ (fun _ r => r.tables.sll8) (Nat.mod_lt _ (by decide)) hr
    (f := (setWidth 32 · <<< _)) fun _ => by rw [sll8, BitVec.ofNat_toNat]
  obtain ⟨w₃, hs⟩ := sllBytes_spec p
  rw [sum_shiftLeft, ha₂, ha, h2] at hs
  generalize s₂.run sllBytes = s₃ at *
  have w : Within [s0, gp, tp] [1, varA, varB, varC] ∅ s s₃ := w₁.mono.trans (w₂.mono.trans w₃.mono)
  have h0' : s₃.var 1 = s.reg s0 := by rw [w₃.var 1 (by simp), w₂.var 1 (by simp), h0]
  refine ⟨(s₃.setReg s0 (s₃.var 1)).next.next, by simpa using w.restore (by simp) h0', ?_⟩
  simp [next_setReg, hs]

end Sll

section ShiftRight

variable {amount : ShiftAmount} {isArith : Bool}

-- The blocks of `shiftRightTemplate`: the words for the bytes 2, 1 and 0 are fetched into variables,
-- their bytes are joined in gp, and the word for byte 3 is fetched.
def fetchByte (k : Fin 4) (v : Fin 8) : List Instr :=
  getShiftByteInTp s0 k ++ [sw tp (spVar v)]

def shiftRightFetch : List Instr :=
  fetchByte 2 varB ++ fetchByte 1 varC ++ fetchByte 0 varD

def shiftRightJoin : List Instr :=
  [lbu gp (spVarByte varB 1), lbu tp (spVarByte varC 2), .add gp gp tp,
   lbu tp (spVarByte varD 3), .add gp gp tp, sw gp (spVar varD)] ++
  [lbu gp (spVarByte varB 2), lbu tp (spVarByte varC 3), .add gp gp tp, sb gp (spVarByte varD 1)] ++
  [lbu gp (spVarByte varB 3), sb gp (spVarByte varD 2)] ++ [lw gp (spVar varD)]

def shiftRightLow : List Instr :=
  shiftRightFetch ++ shiftRightJoin

def shiftRightSign (sym : Symbols) (isArith : Bool) : List Instr :=
  if isArith then la tp (sym.sra8Table - sym.srl8Table) ++ [.add s0 s0 tp] else []

theorem shiftRightTemplate_eq (h : amount ≠ .imm 24) : shiftRightTemplate sym rd rs1 amount isArith =
    [push s0 1, sw rs1 (spVar varA)] ++ shiftRow sym amount ++ shiftRightLow ++
    shiftRightSign sym isArith ++ getShiftByteInTp s0 3 ++ [pop s0 1, .add rd gp tp] := by
  rw [shiftRightTemplate]
  case x => exact h
  simp [shiftRightLow, shiftRightFetch, fetchByte, shiftRightJoin, shiftRightSign]

theorem fetchByte_spec {v : Fin 8} (p : Points sym f s) (h : v ≠ 0) :
    Within [tp] [v] ∅ s (s.run (fetchByte k v)) ∧ (s.run (fetchByte k v)).var v = f ((s.var varA).byte k) := by
  have ⟨w, ht⟩ := getShiftByteInTp_spec (k := k) p
  exact ⟨by simpa [fetchByte, h] using w.mono, by simpa [fetchByte] using ht⟩

theorem shiftRightFetch_spec (p : Points sym f s) : Within [tp] [varB, varC, varD] ∅ s (s.run shiftRightFetch) ∧
    (s.run shiftRightFetch).var varB = f ((s.var varA).byte 2) ∧
    (s.run shiftRightFetch).var varC = f ((s.var varA).byte 1) ∧
    (s.run shiftRightFetch).var varD = f ((s.var varA).byte 0) := by
  have ⟨w₁, hb⟩ := fetchByte_spec (k := 2) (v := varB) p (by simp)
  have p₁ := p.within w₁
  have ⟨w₂, hc⟩ := fetchByte_spec (k := 1) (v := varC) p₁ (by simp)
  have p₂ := p₁.within w₂
  have ⟨w₃, hd⟩ := fetchByte_spec (k := 0) (v := varD) p₂ (by simp)
  have ha := w₁.var varA (by simp)
  simp only [shiftRightFetch, run_append]
  refine ⟨w₁.mono.trans (w₂.mono.trans w₃.mono), ?varB, ?varC, ?varD⟩
  case varB => rw [w₃.var varB (by simp), w₂.var varB (by simp), hb]; rfl
  case varC => rw [w₃.var varC (by simp), hc, ha]; rfl
  case varD => rw [hd, w₂.var varA (by simp), ha]; rfl

theorem shiftRightJoin_spec : Within [gp, tp] [varD] ∅ s (s.run shiftRightJoin) ∧
    (s.run shiftRightJoin).reg gp = srlJoin (s.var varB) (s.var varC) (s.var varD) := by
  simp [shiftRightJoin, srlJoin]

-- The amount of a shift and the register fields it is encoded by.
def ShiftAmount.value (s : State) : ShiftAmount → Nat
  | .reg rs2 => (s.reg rs2).toNat % 32
  | .imm n   => n

theorem shiftRow_spec (amount : ShiftAmount) (r : sym.Ready s) :
    Within [s0, tp] [varB] ∅ s (s.run (shiftRow sym amount)) ∧
    (s.run (shiftRow sym amount)).reg s0 = sym.srl8Table + BitVec.ofNat 32 (amount.value s <<< 10) := by
  cases amount
  case reg rs2 =>
    have : shiftRow sym (.reg rs2) = tableRow sym sym.srl8Table rs2 := by simp [shiftRow, tableRow]
    exact this ▸ tableRow_spec sym.srl8Table rs2 r
  case imm n => simp [shiftRow, ShiftAmount.value]

-- After the switch to the other table s0 points to the row of the same amount there.
theorem shiftRightSign_spec (isArith : Bool) (ha : s.reg s0 = sym.srl8Table + v) :
    Within [s0, tp] [] ∅ s (s.run (shiftRightSign sym isArith)) ∧
    (s.run (shiftRightSign sym isArith)).reg s0 = (if isArith then sym.sra8Table else sym.srl8Table) + v := by
  cases isArith
  case false => simp [shiftRightSign, ha]
  case true =>
    have : sym.srl8Table + v + (sym.sra8Table - sym.srl8Table) = sym.sra8Table + v := by abel
    simp [shiftRightSign, ha, this]

theorem shiftRightLow_spec (p : Points sym (fun b => srl8 n b.toNat) s) :
    Within [gp, tp] [varB, varC, varD] ∅ s (s.run shiftRightLow) ∧
    (s.run shiftRightLow).reg gp = srlLow n (s.var varA) := by
  have ⟨w₁, hb, hc, hd⟩ := shiftRightFetch_spec p
  have ⟨w₂, hg⟩ := shiftRightJoin_spec (s := s.run shiftRightFetch)
  rw [shiftRightLow, run_append]
  exact ⟨w₁.mono.trans w₂.mono, by rw [hg, hb, hc, hd, srlLow]⟩

def shiftRightEntry (isArith : Bool) : Nat → Nat → Word :=
  if isArith then sra8 else srl8

def shiftRight (isArith : Bool) (v : Word) (n : Nat) : Word :=
  if isArith then v.sshiftRight n else v >>> n

theorem srlLow_add_entry {v : Word} :
    srlLow n v + shiftRightEntry isArith n (v.byte 3).toNat = shiftRight isArith v n := by
  cases isArith
  case false => exact srl8_join
  case true  => exact sra8_join

theorem run_shiftRight (r : sym.Ready s) (h : amount ≠ .imm 24) (hn : amount.value s < 32) :
    s.Computes (shiftRightTemplate sym rd rs1 amount isArith) [gp, tp] [1, varA, varB, varC, varD] rd
      (shiftRight isArith (s.reg rs1) (amount.value s)) := by
  have w₁ : Within [] [1, varA] ∅ s (s.run [push s0 1, sw rs1 (spVar varA)]) := by simp
  have ha : (s.run [push s0 1, sw rs1 (spVar varA)]).var varA = s.reg rs1 := by simp
  have h0 : (s.run [push s0 1, sw rs1 (spVar varA)]).var 1 = s.reg s0 := by simp
  have hv : amount.value (s.run [push s0 1, sw rs1 (spVar varA)]) = amount.value s := by
    cases amount <;> simp [ShiftAmount.value]
  rw [Computes, shiftRightTemplate_eq h, run_append, run_append, run_append, run_append, run_append]
  generalize s.run [push s0 1, sw rs1 (spVar varA)] = s₁ at *
  have r₁ := r.within w₁
  obtain ⟨w₂, hr⟩ := shiftRow_spec amount r₁
  rw [hv] at hr
  generalize s₁.run (shiftRow sym amount) = s₂ at *
  have r₂ := r₁.within w₂
  have p₂ := points_of_table r₂ (fun _ r => r.tables.srl8) hn hr fun _ => rfl
  obtain ⟨w₃, hg⟩ := shiftRightLow_spec p₂
  generalize s₂.run shiftRightLow = s₃ at *
  obtain ⟨w₄, hs⟩ := shiftRightSign_spec isArith ((w₃.reg s0 (by simp)).trans hr)
  generalize s₃.run (shiftRightSign sym isArith) = s₄ at *
  have p₄ : Points sym (fun b => shiftRightEntry isArith (amount.value s) b.toNat) s₄ := by
    refine points_of_table ((r₂.within w₃).within w₄) (fun _ r => ?_) hn hs fun _ => rfl
    cases isArith
    case false => exact r.tables.srl8
    case true  => exact r.tables.sra8
  obtain ⟨w₅, ht⟩ := getShiftByteInTp_spec (k := 3) p₄
  generalize s₄.run (getShiftByteInTp s0 3) = s₅ at *
  have w : Within [s0, gp, tp] [1, varA, varB, varC, varD] ∅ s s₅ :=
    w₁.mono.trans (w₂.mono.trans (w₃.mono.trans (w₄.mono.trans w₅.mono)))
  have h0' : s₅.var 1 = s.reg s0 := by
    rw [w₅.var 1 (by simp), w₄.var 1 (by simp), w₃.var 1 (by simp), w₂.var 1 (by simp), h0]
  have ha₂ : s₂.var varA = s.reg rs1 := by rw [w₂.var varA (by simp), ha]
  have ha₄ : s₄.var varA = s.reg rs1 := by rw [w₄.var varA (by simp), w₃.var varA (by simp), ha₂]
  have hd : s₅.reg gp + s₅.reg tp = shiftRight isArith (s.reg rs1) (amount.value s) := by
    rw [w₅.reg gp (by simp), w₄.reg gp (by simp), hg, ht, ha₂, ha₄, ← srlLow_add_entry]
    rfl
  refine ⟨(s₅.setReg s0 (s₅.var 1)).next.next, by simpa using w.restore (by simp) h0', ?_⟩
  simp [next_setReg, ← hd]

-- The fast path of `srai` for an amount of 24 up to the lookup.
def srai24Row (sym : Symbols) (rd rs1 : Reg) : List Instr :=
  [sw rs1 (spVar varA)] ++ la tp (sym.sra8Table + BitVec.ofNat 32 (24 <<< 10)) ++
  [lbu rd (spVarByte varA 3)] ++ slli rd rd 2

theorem run_shiftRight_24 (r : sym.Ready s) (hs : rd ≠ sp) (ht : rd ≠ tp) :
    s.Computes (shiftRightTemplate sym rd rs1 (.imm 24) isArith) [gp, tp] [1, varA, varB, varC, varD] rd
      (shiftRight isArith (s.reg rs1) 24) := by
  cases isArith
  case false =>
    refine .of_within ?_ hs fun h => ?_
    case refine_1 => simp [shiftRightTemplate, hs.symm]
    case refine_2 => simp [shiftRightTemplate, shiftRight, h, byte_3_eq]
  case true =>
    have e : shiftRightTemplate sym rd rs1 (.imm 24) true =
        srai24Row sym rd rs1 ++ [.add tp tp rd, lw rd (at0 tp)] := by
      simp [shiftRightTemplate, srai24Row]
    have w : Within [rd, tp] [varA] ∅ s (s.run (srai24Row sym rd rs1)) := by simp [srai24Row, hs.symm]
    have hx := row_of_table (r.within w (by simp [hs.symm])).tables.sra8 (n := 24) (by decide) ((s.reg rs1).byte 3)
    have hp : (s.run (srai24Row sym rd rs1)).reg tp = sym.sra8Table + BitVec.ofNat 32 (24 <<< 10) := by
      simp [srai24Row, ht.symm]
    have hq (h : rd ≠ 0) : (s.run (srai24Row sym rd rs1)).reg rd = ((s.reg rs1).byte 3).setWidth 32 <<< 2 := by
      simp [srai24Row, h]
    rw [e]
    refine .of_within ?_ hs fun h => ?_
    case refine_1 => simpa [hs.symm] using w.mono
    case refine_2 =>
      rw [run_append]
      generalize s.run (srai24Row sym rd rs1) = s₁ at *
      simp [shiftRight, h, ← sra8_24, ← hx, hp, hq h]

end ShiftRight

section Correct

variable {imm : Nat}

theorem straight_getShiftByteInTp : Straight (getShiftByteInTp rd k) := by
  simp [getShiftByteInTp]

theorem straight_tableRow {table : Word} : Straight (tableRow sym table rs2) := by
  simp [tableRow, getshamt]

theorem straight_sll : Straight (sll sym rd rs1 rs2) := by
  simp [sll_eq, sllBytes, sllByte3, sllByte2, sllByte1, straight_getShiftByteInTp, straight_tableRow]

theorem straight_shiftRight {amount : ShiftAmount} {isArith : Bool} :
    Straight (shiftRightTemplate sym rd rs1 amount isArith) := by
  by_cases h : amount = .imm 24
  case pos => cases isArith <;> simp [h, shiftRightTemplate]
  case neg =>
    have hr : Straight (shiftRow sym amount) := by
      cases amount <;> simp [shiftRow, getshamt]
    have hs : Straight (shiftRightSign sym isArith) := by
      cases isArith <;> simp [shiftRightSign]
    simp [shiftRightTemplate_eq h, hr, hs, shiftRightLow, shiftRightFetch, fetchByte, shiftRightJoin,
      straight_getShiftByteInTp]

theorem shift_implements (r : sym.Ready s) (hs : rd ≠ sp) (ht : rd ≠ tp) (hi : imm < 32) :
    s.Implements (sll sym rd rs1 rs2) rd (s.reg rs1 <<< ((s.reg rs2).toNat % 32)) ∧
    s.Implements (srl sym rd rs1 rs2) rd (s.reg rs1 >>> ((s.reg rs2).toNat % 32)) ∧
    s.Implements (sra sym rd rs1 rs2) rd ((s.reg rs1).sshiftRight ((s.reg rs2).toNat % 32)) ∧
    s.Implements (slli rd rs1 imm) rd (s.reg rs1 <<< imm) ∧
    s.Implements (srli sym rd rs1 imm) rd (s.reg rs1 >>> imm) ∧
    s.Implements (srai sym rd rs1 imm) rd ((s.reg rs1).sshiftRight imm) := by
  have hreg {isArith} : s.Computes (shiftRightTemplate sym rd rs1 (.reg rs2) isArith) [gp, tp]
      [1, varA, varB, varC, varD] rd (shiftRight isArith (s.reg rs1) ((s.reg rs2).toNat % 32)) :=
    run_shiftRight r (by simp) (Nat.mod_lt _ (by decide))
  have himm {isArith} : s.Computes (shiftRightTemplate sym rd rs1 (.imm imm) isArith) [gp, tp]
      [1, varA, varB, varC, varD] rd (shiftRight isArith (s.reg rs1) imm) := by
    by_cases h : imm = 24
    case pos => exact h ▸ run_shiftRight_24 r hs ht
    case neg => exact run_shiftRight r (by simpa using h) hi
  refine ⟨?sll, ?srl, ?sra, ?slli, ?srli, ?srai⟩
  case sll  => exact (run_sll r).implements straight_sll
  case srl  => exact hreg.implements straight_shiftRight
  case sra  => exact hreg.implements straight_shiftRight
  case slli => exact (run_slli_lt_32 hi hs).implements straight_slli
  case srli => exact himm.implements straight_shiftRight
  case srai => exact himm.implements straight_shiftRight

theorem shift_implements_loaded :
    let sym := Symbols.at 0x80100000
    let s := loaded 0x80100000 0x80200000
    s.Implements (sll sym s0 10 29) s0 0x40000000 ∧ s.Implements (srl sym s0 10 29) s0 0 ∧
    s.Implements (sra sym s0 10 29) s0 0 ∧ s.Implements (slli s0 10 28) s0 0xa0000000 ∧
    s.Implements (srli sym s0 10 28) s0 0 ∧ s.Implements (srai sym s0 10 28) s0 0 :=
  shift_implements (ready_loaded (by decide)) (by decide) (by decide) (by decide)

end Correct

end InstReplace
