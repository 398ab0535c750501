import Ysyx.Minirv.Layout
import Ysyx.Minirv.Theorems.Slli

-- The expansions of the bitwise operations.

open Rv32 State InstReplace BitVec

namespace InstReplace

variable {sym : Symbols} {s s' : State} {rd rs1 rs2 : Reg} {W : List Reg} {V : List (Fin 8)} {M : Set Word}
variable {lut : Word} {expr : Nat → Nat → Word} {op : Word → Word → Word} {op8 : Byte → Byte → Byte}

-- The operation on words works byte by byte, and the entries of the table are the results for bytes.
structure Bytewise (expr : Nat → Nat → Word) (op : Word → Word → Word) (op8 : Byte → Byte → Byte) : Prop where
  entry : ∀ x y : Byte, (expr x.toNat y.toNat).byte 0 = op8 x y
  byte  : ∀ v w : Word, ∀ i < 4, (op v w).byte i = op8 (v.byte i) (w.byte i)

theorem byte_ofNat_toNat {n : Nat} {x : Byte} (h : n = x.toNat) : (BitVec.ofNat 32 n).byte 0 = x := by
  rw [h, BitVec.ofNat_toNat, byte_setWidth_zero]

theorem bytewise_and : Bytewise and8 (· &&& ·) (· &&& ·) where
  entry x y      := byte_ofNat_toNat (toNat_and x y).symm
  byte v w i hi  := by ext j hj; simp [← getLsbD_eq_getElem, hj]

theorem bytewise_or : Bytewise or8 (· ||| ·) (· ||| ·) where
  entry x y      := byte_ofNat_toNat (toNat_or x y).symm
  byte v w i hi  := by ext j hj; simp [← getLsbD_eq_getElem, hj]

theorem bytewise_xor : Bytewise xor8 (· ^^^ ·) (· ^^^ ·) where
  entry x y      := byte_ofNat_toNat (toNat_xor x y).symm
  byte v w i hi  := by ext j hj; simp [← getLsbD_eq_getElem, hj]

-- The upper half of the word in which the index of a table entry is assembled stays clear.
def HighClear (v : Word) : Prop :=
  v.byte 2 = 0 ∧ v.byte 3 = 0

theorem highClear_index {v : Word} (h : HighClear v) (x y : Byte) : HighClear ((v.setByte 1 x).setByte 0 y) := by
  simp [HighClear, byte_setByte, h.left, h.right]

theorem index_eq {v : Word} (h : HighClear v) (x y : Byte) :
    (v.setByte 1 x).setByte 0 y = BitVec.ofNat 32 (x.toNat <<< 8) + BitVec.ofNat 32 y.toNat := by
  apply BitVec.eq_of_toNat_eq
  rw [← ofBytes_byte (v := (v.setByte 1 x).setByte 0 y), toNat_ofBytes]
  simp [byte_setByte, h.left, h.right, Nat.shiftLeft_eq]
  omega

def logicIndex (k : Fin 4) : List Instr :=
  [lbu tp (spVarByte varA k), sb tp (spVarByte varD 1), lbu tp (spVarByte varB k), sb tp (spVarByte varD 0),
   lw tp (spVar varD)]

theorem logicIndex_spec (k : Fin 4) (h : HighClear (s.var varD)) : Within [tp] [varD] ∅ s (s.run (logicIndex k)) ∧
    HighClear ((s.run (logicIndex k)).var varD) ∧ (s.run (logicIndex k)).reg tp =
      BitVec.ofNat 32 (((s.var varA).byte k).toNat <<< 8) + BitVec.ofNat 32 ((s.var varB).byte k).toNat := by
  have hc := highClear_index h ((s.var varA).byte k) ((s.var varB).byte k)
  rw [← index_eq h]
  simpa [logicIndex] using hc

theorem logic8ByteInternal_eq {k : Fin 4} : logic8ByteInternal rd k =
    logicIndex k ++ [.add tp rd tp, lbu tp (at0 tp), sb tp (spVarByte varC k)] := by
  simp [logic8ByteInternal, logicIndex]

-- The states in which a byte of the result can be looked up.
structure LogicReady (sym : Symbols) (rd : Reg) (lut : Word) (s : State) : Prop where
  ready : sym.Ready s
  table : s.reg rd = lut
  clear : HighClear (s.var varD)

theorem logic8ByteInternal_spec (k : Fin 4) (hl : ∀ s, sym.Ready s → s.mem.Holds lut (genTable 256 256 1 expr))
    (hb : Bytewise expr op op8) (hr : LogicReady sym rd lut s) (ht : rd ≠ tp) :
    LogicReady sym rd lut (s.run (logic8ByteInternal rd k)) ∧
    Within [tp] [varC, varD] ∅ s (s.run (logic8ByteInternal rd k)) ∧
    (s.run (logic8ByteInternal rd k)).var varC =
      (s.var varC).setByte k (op8 ((s.var varA).byte k) ((s.var varB).byte k)) := by
  have ⟨w, hd, hi⟩ := logicIndex_spec k hr.clear
  have h := hl _ (hr.ready.within w)
  have hc := w.var varC (by simp)
  rw [logic8ByteInternal_eq, run_append]
  have hrd := (w.reg rd (by simpa using ht)).trans hr.table
  generalize s.run (logicIndex k) = s₁ at *
  have he := byteEntry h ((s.var varA).byte k).isLt ((s.var varB).byte k).isLt
  rw [hb.entry, BitVec.add_assoc, ← hi] at he
  have w' : Within [tp] [varC, varD] ∅ s
      (s₁.run [.add tp rd tp, lbu tp (at0 tp), sb tp (spVarByte varC k)]) := by simpa using w.mono
  refine ⟨⟨hr.ready.within w', ?_, ?_⟩, w', ?_⟩
  case refine_1 => rw [w'.reg rd (by simpa using ht), hr.table]
  case refine_2 => simpa using hd
  case refine_3 => simp [hrd, he, hc]

def logicBytes (rd : Reg) : List Instr :=
  logic8ByteInternal rd 3 ++ logic8ByteInternal rd 2 ++ logic8ByteInternal rd 1 ++ logic8ByteInternal rd 0

theorem logicBytes_spec (hl : ∀ s, sym.Ready s → s.mem.Holds lut (genTable 256 256 1 expr))
    (hb : Bytewise expr op op8) (hr : LogicReady sym rd lut s) (ht : rd ≠ tp) :
    Within [tp] [varC, varD] ∅ s (s.run (logicBytes rd)) ∧
    (s.run (logicBytes rd)).var varC = op (s.var varA) (s.var varB) := by
  have ⟨r₃, w₃, h₃⟩ := logic8ByteInternal_spec 3 hl hb hr ht
  simp only [logicBytes, run_append]
  generalize s.run (logic8ByteInternal rd 3) = s₃ at *
  have ⟨r₂, w₂, h₂⟩ := logic8ByteInternal_spec 2 hl hb r₃ ht
  generalize s₃.run (logic8ByteInternal rd 2) = s₂ at *
  have ⟨r₁, w₁, h₁⟩ := logic8ByteInternal_spec 1 hl hb r₂ ht
  generalize s₂.run (logic8ByteInternal rd 1) = s₁ at *
  have ⟨_, w₀, h₀⟩ := logic8ByteInternal_spec 0 hl hb r₁ ht
  generalize s₁.run (logic8ByteInternal rd 0) = s₀ at *
  have w₂₃ := w₃.trans w₂
  have w₁₃ := w₂₃.trans w₁
  refine ⟨w₁₃.trans w₀, ?_⟩
  rw [h₀, h₁, h₂, h₃, w₃.var varA (by simp), w₃.var varB (by simp), w₂₃.var varA (by simp), w₂₃.var varB (by simp),
    w₁₃.var varA (by simp), w₁₃.var varB (by simp)]
  refine eq_of_byte fun i hi => ?_
  rw [hb.byte _ _ i hi]
  simp only [byte_setByte hi]
  obtain rfl | rfl | rfl | rfl : i = 0 ∨ i = 1 ∨ i = 2 ∨ i = 3 := by omega
  all_goals simp

def logicLoad (lut : Word) (rd rs1 rs2 : Reg) : List Instr :=
  [sw rs1 (spVar varA), sw rs2 (spVar varB)] ++ la rd lut ++ [sw x0 (spVar varD)]

-- The operands that the macro accepts.
structure LogicArgs (rd rs1 rs2 : Reg) : Prop where
  rd  : rd ∉ [x0, sp, gp, tp]
  rs1 : rs1 ∉ [sp, gp, tp]
  rs2 : rs2 ∉ [sp, gp]

theorem logic_eq (h : LogicArgs rd rs1 rs2) :
    logic lut rd rs1 rs2 = some (logicLoad lut rd rs1 rs2 ++ logicBytes rd ++ [lw rd (spVar varC)]) := by
  have ⟨hd, h1, h2⟩ := h
  simp only [List.mem_cons, List.not_mem_nil, or_false] at hd h1 h2
  rw [logic, if_neg (by tauto), if_neg (by tauto), if_neg (by tauto), if_neg (by tauto)]
  simp [logicLoad, logicBytes]

theorem run_logic (hl : ∀ s, sym.Ready s → s.mem.Holds lut (genTable 256 256 1 expr)) (hb : Bytewise expr op op8)
    (r : sym.Ready s) (h : LogicArgs rd rs1 rs2) :
    ∃ code ∈ logic lut rd rs1 rs2, s.Computes code [tp] [varA, varB, varC, varD] rd (op (s.reg rs1) (s.reg rs2)) := by
  have ⟨h₀, hs, ht⟩ : rd ≠ 0 ∧ rd ≠ sp ∧ rd ≠ tp := by
    have := h.rd
    simp at this
    tauto
  have w₁ : Within [rd] [varA, varB, varD] ∅ s (s.run (logicLoad lut rd rs1 rs2)) := by simp [logicLoad, hs.symm]
  have ha : (s.run (logicLoad lut rd rs1 rs2)).var varA = s.reg rs1 := by simp [logicLoad, hs]
  have hb' : (s.run (logicLoad lut rd rs1 rs2)).var varB = s.reg rs2 := by simp [logicLoad, hs]
  have hr : LogicReady sym rd lut (s.run (logicLoad lut rd rs1 rs2)) := {
    ready := r.within w₁ (by simpa using hs.symm)
    table := by simp [logicLoad, h₀]
    clear := by
      rw [show (s.run (logicLoad lut rd rs1 rs2)).var varD = 0 by simp [logicLoad]]
      exact ⟨byte_zero, byte_zero⟩
  }
  have ⟨w₂, hv⟩ := logicBytes_spec hl hb hr ht
  refine ⟨_, logic_eq h, .of_within ?_ hs fun _ => ?_⟩
  case refine_1 =>
    simp only [run_append]
    have w : Within [rd, tp] [varA, varB, varC, varD] ∅ s ((s.run (logicLoad lut rd rs1 rs2)).run (logicBytes rd)) :=
      w₁.mono.trans w₂.mono (by simpa using hs.symm)
    simpa [hs.symm] using w
  case refine_2 => simp [hv, ha, hb', h₀]

section Correct

variable {imm : BitVec 12}

theorem straight_logic {code : List Instr} (h : code ∈ logic lut rd rs1 rs2) (ha : LogicArgs rd rs1 rs2) :
    Straight code := by
  rw [logic_eq ha] at h
  cases h
  simp [logicLoad, logicBytes, logic8ByteInternal]

theorem logic_delivers (hl : ∀ s, sym.Ready s → s.mem.Holds lut (genTable 256 256 1 expr)) (hb : Bytewise expr op op8)
    (r : sym.Ready s) (h : LogicArgs rd rs1 rs2) :
    ∃ code ∈ logic lut rd rs1 rs2, s.Delivers code [tp] rd (op (s.reg rs1) (s.reg rs2)) := by
  have ⟨code, hc, c⟩ := run_logic hl hb r h
  exact ⟨code, hc, c.delivers (straight_logic hc h)⟩

-- The macros with an immediate put it into tp first.
theorem logici_delivers (hl : ∀ s, sym.Ready s → s.mem.Holds lut (genTable 256 256 1 expr))
    (hb : Bytewise expr op op8)
    (r : sym.Ready s) (h : LogicArgs rd rs1 tp) : ∃ code ∈ (logic lut rd rs1 tp).map ([li tp imm] ++ ·),
      s.Delivers code [tp] rd (op (s.reg rs1) (imm.signExtend 32)) := by
  have w : Within [tp] [varA, varB, varC, varD] ∅ s (s.run [li tp imm]) := by simp
  have ⟨code, hc, c⟩ := run_logic hl hb (r.within w) h
  have h₁ : rs1 ≠ tp := fun he => h.rs1 (by simp [he])
  have hv : op ((s.run [li tp imm]).reg rs1) ((s.run [li tp imm]).reg tp) = op (s.reg rs1) (imm.signExtend 32) := by
    simp [h₁]
  rw [hv] at c
  refine ⟨[li tp imm] ++ code, Option.mem_map_of_mem _ hc, (c.prepend w).delivers ?_⟩
  exact straight_append.mpr ⟨by simp, straight_logic hc h⟩

-- The bitwise operations, with a register or an immediate as second operand, and the complement.
theorem bitwise_delivers (r : sym.Ready s) (hd : rd ∉ [x0, sp, gp, tp]) (h1 : rs1 ∉ [sp, gp, tp])
    (h2 : rs2 ∉ [sp, gp])
    (d r1 : Reg) :
    (∃ code ∈ InstReplace.and sym rd rs1 rs2, s.Delivers code [tp] rd (s.reg rs1 &&& s.reg rs2)) ∧
    (∃ code ∈ InstReplace.or sym rd rs1 rs2, s.Delivers code [tp] rd (s.reg rs1 ||| s.reg rs2)) ∧
    (∃ code ∈ InstReplace.xor sym rd rs1 rs2, s.Delivers code [tp] rd (s.reg rs1 ^^^ s.reg rs2)) ∧
    (∃ code ∈ andi sym rd rs1 imm, s.Delivers code [tp] rd (s.reg rs1 &&& imm.signExtend 32)) ∧
    (∃ code ∈ ori sym rd rs1 imm, s.Delivers code [tp] rd (s.reg rs1 ||| imm.signExtend 32)) ∧
    (∃ code ∈ xori sym rd rs1 imm, s.Delivers code [tp] rd (s.reg rs1 ^^^ imm.signExtend 32)) ∧
    s.Delivers (InstReplace.not sym d r1) [tp] d (~~~s.reg r1) := by
  have ha : LogicArgs rd rs1 rs2 := ⟨hd, h1, h2⟩
  have hi : LogicArgs rd rs1 tp := ⟨hd, h1, by decide⟩
  refine ⟨?and, ?or, ?xor, ?andi, ?ori, ?xori, ?not⟩
  case and  => exact logic_delivers (fun _ r => r.tables.and8) bytewise_and r ha
  case or   => exact logic_delivers (fun _ r => r.tables.or8) bytewise_or r ha
  case xor  => exact logic_delivers (fun _ r => r.tables.xor8) bytewise_xor r ha
  case andi => exact logici_delivers (fun _ r => r.tables.and8) bytewise_and r hi
  case ori  => exact logici_delivers (fun _ r => r.tables.or8) bytewise_or r hi
  case xori => exact logici_delivers (fun _ r => r.tables.xor8) bytewise_xor r hi
  case not  => exact (run_not r).delivers (by simp [InstReplace.not])

theorem bitwise_delivers_loaded :
    let sym := Symbols.at 0x80100000
    let s := loaded 0x80100000 0x80200000
    (∃ code ∈ InstReplace.and sym s0 10 12, s.Delivers code [tp] s0 8) ∧
    (∃ code ∈ InstReplace.or sym s0 10 12, s.Delivers code [tp] s0 14) ∧
    (∃ code ∈ InstReplace.xor sym s0 10 12, s.Delivers code [tp] s0 6) ∧
    (∃ code ∈ andi sym s0 10 (-2), s.Delivers code [tp] s0 10) ∧
    (∃ code ∈ ori sym s0 10 (-2), s.Delivers code [tp] s0 (-2)) ∧
    (∃ code ∈ xori sym s0 10 (-2), s.Delivers code [tp] s0 (-12)) ∧
    s.Delivers (InstReplace.not sym gp gp) [tp] gp (-4) :=
  bitwise_delivers (ready_loaded (by decide)) (by decide) (by decide) (by decide) gp gp

end Correct

end InstReplace
