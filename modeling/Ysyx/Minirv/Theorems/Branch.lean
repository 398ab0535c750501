import Ysyx.Minirv.Theorems.Slt

open Rv32 State InstReplace BitVec

namespace InstReplace

variable {sym : Symbols} {s s' : State} {rd rs1 rs2 : Reg} {W : List Reg} {V : List (Fin 8)} {M : Set Word}
variable {target label : Word} {high c : Bool}

section Resolve

-- The two destinations are stored in the variables A and B.
def branchSlots (target : Word) (high : Bool) (label : Word) : List Instr :=
  if high then
    la gp target ++ [sw gp (spVar varA)] ++ la gp label ++ [sw gp (spVar varB)]
  else
    la gp label ++ [sw gp (spVar varA)] ++ la gp target ++ [sw gp (spVar varB)]

theorem branchResolve_eq : branchResolve target high label = slli tp tp 2 ++ [.add tp sp tp] ++
    branchSlots target high label ++ [lw tp ⟨-varB * 4, tp⟩, jr tp] := by
  cases high <;> simp [branchResolve, branchSlots]

theorem branchSlots_spec (s : State) (target : Word) (high : Bool) (label : Word) :
    Within [gp] [varA, varB] ∅ s (s.run (branchSlots target high label)) ∧
    ∀ c, (s.run (branchSlots target high label)).var (if c then varA else varB) =
      if c == high then target else label := by
  cases high <;> simp [branchSlots]

theorem exec_lw_slot (h : s.reg tp = s.reg sp + bit c <<< 2) :
    s.exec (InstReplace.lw tp ⟨-varB * 4, tp⟩) = (s.setReg tp (s.var (if c then varA else varB))).next := by
  have ha : s.addr (BitVec.ofInt 12 (-varB * 4)) tp = varAddr (s.reg sp) (if c then varA else varB) := by
    rw [State.addr, h, varAddr, BitVec.add_assoc, BitVec.sub_eq_add_neg]
    cases c <;> rfl
  rw [InstReplace.lw, exec, ha, State.var]

theorem exec_jr : s.exec (jr rd) = s.jump (s.reg rd &&& ~~~1) := by
  simp [jr, exec, setReg_zero]

theorem branchResolve_spec (high : Bool) (h : s.reg tp = bit c) (ht : target &&& ~~~1 = target)
    (hl : label &&& ~~~1 = label) :
    Within [gp, tp] [varA, varB] ∅ s (s.run (branchResolve target high label)) ∧
    (s.run (branchResolve target high label)).pc = if c == high then target else label := by
  have w₁ : Within [tp] [] ∅ s (s.run (slli tp tp 2 ++ [.add tp sp tp])) := by simp
  have hp : (s.run (slli tp tp 2 ++ [.add tp sp tp])).reg tp = s.reg sp + bit c <<< 2 := by simp [h]
  rw [branchResolve_eq, run_append, run_append]
  generalize s.run (slli tp tp 2 ++ [.add tp sp tp]) = s₁ at *
  have ⟨w₂, hv⟩ := branchSlots_spec s₁ target high label
  generalize s₁.run (branchSlots target high label) = s₂ at *
  have w : Within [gp, tp] [varA, varB] ∅ s s₂ := w₁.mono.trans w₂.mono
  have hp₂ : s₂.reg tp = s₂.reg sp + bit c <<< 2 := by
    rw [w₂.reg tp (by simp), hp, w.reg sp (by simp)]
  rw [run_cons, run_cons, run_nil, exec_lw_slot hp₂, exec_jr]
  refine ⟨by simpa using w, ?_⟩
  rw [pc_jump, reg_next, reg_setReg, if_pos (by simp), hv c]
  split
  case isTrue  => exact ht
  case isFalse => exact hl

end Resolve

section SameResult

variable {b : Byte}

theorem sameResult_entry (r : sym.Ready s) {c₀ c₁ c₂ c₃ : Bool} :
    (s.mem (sym.sameResultTable + (bit c₀ + bit c₁ + bit c₂ + bit c₃))).setWidth 32 =
      bit (!(c₀ || c₁ || c₂ || c₃)) := by
  have hi : bit c₀ + bit c₁ + bit c₂ + bit c₃ = BitVec.ofNat 32 (c₀.toNat + c₁.toNat + c₂.toNat + c₃.toNat) := by
    revert c₀ c₁ c₂ c₃
    decide
  have hb : Rodata.sameResultTable[c₀.toNat + c₁.toNat + c₂.toNat + c₃.toNat]? =
      some ((bit (!(c₀ || c₁ || c₂ || c₃))).setWidth 8) := by
    revert c₀ c₁ c₂ c₃
    decide
  rw [hi, r.sameResult _ _ hb, setWidth_bit]

theorem check8bit0Table_getElem? : Rodata.check8bit0Table[b.toNat]? = some ((bit (b != 0)).setWidth 8) := by
  by_cases hb : b = 0#8
  case pos =>
    subst hb
    rfl
  case neg =>
    have hn : b.toNat ≠ 0 := fun h => hb <| BitVec.eq_of_toNat_eq h
    obtain ⟨n, hn⟩ := Nat.exists_eq_succ_of_ne_zero hn
    have hl : n < 255 := by omega
    have hd : (b != 0) = true := bne_iff_ne.mpr hb
    rw [hn, Rodata.check8bit0Table, List.getElem?_cons_succ, List.getElem?_replicate, if_pos hl, hd]
    rfl

theorem check8bit0_entry (r : sym.Ready s) :
    (s.mem (sym.check8bit0Table + b.setWidth 32)).setWidth 32 = bit (b != 0) := by
  rw [← BitVec.ofNat_toNat (x := b), r.check8bit0 _ _ check8bit0Table_getElem?, setWidth_bit]

theorem sameResult_sum (r : sym.Ready s) {c₀ c₁ c₂ c₃ : Bool}
    (h : s.reg gp = bit c₀ + bit c₁ + bit c₂ + bit c₃) :
    (s.mem (sym.sameResultTable + s.reg gp)).setWidth 32 = bit (!(c₀ || c₁ || c₂ || c₃)) := by
  rw [h, sameResult_entry r]

-- The lookup that both equality tests end with.
def sameLookup (sym : Symbols) : List Instr :=
  la tp sym.sameResultTable ++ [.add tp tp gp, lbu tp (at0 tp)]

theorem sameLookup_spec (r : sym.Ready s) {c₀ c₁ c₂ c₃ : Bool}
    (h : s.reg gp = bit c₀ + bit c₁ + bit c₂ + bit c₃) : Within [tp] [] ∅ s (s.run (sameLookup sym)) ∧
    (s.run (sameLookup sym)).reg tp = bit (!(c₀ || c₁ || c₂ || c₃)) := by
  rw [← sameResult_sum r h]
  simp [sameLookup]

theorem bytes_eq_iff {v w : Word} : (!(v.byte 0 != w.byte 0 || v.byte 1 != w.byte 1 || v.byte 2 != w.byte 2 ||
    v.byte 3 != w.byte 3)) = (v == w) := by
  rw [Bool.eq_iff_iff]
  simp
  refine ⟨fun h => eq_of_byte fun i hi => ?_, fun h => by simp [h]⟩
  obtain rfl | rfl | rfl | rfl : i = 0 ∨ i = 1 ∨ i = 2 ∨ i = 3 := by omega
  all_goals simp_all

end SameResult

section SumBytes

variable {chk : Reg → Fin 4 → List Instr} {d : Fin 4 → Bool} {r : Reg}

-- Both equality tests add up in gp the results of a test for every byte.
def sumBytes (chk : Reg → Fin 4 → List Instr) (r : Reg) : List Instr :=
  chk gp 0 ++ (chk r 1 ++ [.add gp gp r]) ++ (chk r 2 ++ [.add gp gp r]) ++ (chk r 3 ++ [.add gp gp r])

-- In the states that `s` reaches the test of byte `k` yields `d k`.
def Tests (chk : Reg → Fin 4 → List Instr) (d : Fin 4 → Bool) (r : Reg) (V : List (Fin 8)) (M : Set Word)
    (s : State) : Prop :=
  ∀ rd ∈ [gp, r], ∀ k s₁, Within [gp, r, tp] V M s s₁ →
    Within [rd, tp] V M s₁ (s₁.run (chk rd k)) ∧ (s₁.run (chk rd k)).reg rd = bit (d k)

theorem Tests.add {s₁ : State} {k : Fin 4} {v : Word} (h : Tests chk d r V M s) (hr : gp ≠ r) (hs : sp ≠ r)
    (w : Within [gp, r, tp] V M s s₁) (hv : s₁.reg gp = v) :
    Within [gp, r, tp] V M s (s₁.run (chk r k ++ [.add gp gp r])) ∧
    (s₁.run (chk r k ++ [.add gp gp r])).reg gp = v + bit (d k) := by
  have ⟨w₁, h₁⟩ := h r (by simp) k s₁ w
  have hg := w₁.reg gp (by simpa using hr)
  refine ⟨?_, by simp [h₁, hg, hv]⟩
  simpa [hs] using w.trans w₁.mono (by simpa using hs)

theorem sumBytes_spec (h : Tests chk d r V M s) (hr : gp ≠ r) (hs : sp ≠ r) :
    Within [gp, r, tp] V M s (s.run (sumBytes chk r)) ∧
    (s.run (sumBytes chk r)).reg gp = bit (d 0) + bit (d 1) + bit (d 2) + bit (d 3) := by
  have ⟨w₀, h₀⟩ := h gp (by simp) 0 s .refl
  have ⟨w₁, h₁⟩ := h.add (k := 1) hr hs w₀.mono h₀
  have ⟨w₂, h₂⟩ := h.add (k := 2) hr hs w₁ h₁
  have ⟨w₃, h₃⟩ := h.add (k := 3) hr hs w₂ h₂
  simp only [sumBytes, run_append] at *
  exact ⟨w₃, h₃⟩

end SumBytes

section Seqz

theorem check8bit0_spec {k : Fin 4} (r : sym.Ready s) (h : s.reg s0 = sym.check8bit0Table) (h₀ : rd ≠ 0)
    (hs : rd ≠ sp) (hr : rd ≠ s0) : Within [rd] [] ∅ s (s.run (check8bit0 s0 rd k)) ∧
    (s.run (check8bit0 s0 rd k)).reg rd = bit ((s.var varA).byte k != 0) := by
  simp [check8bit0, h₀, hs.symm, hr.symm, h, check8bit0_entry r]

def seqzLookup (sym : Symbols) (rd : Reg) : List Instr :=
  la tp sym.sameResultTable ++ [.add tp tp gp, lbu rd (at0 tp), pop s0 1]

theorem seqz_eq : seqz sym rd rs1 = [sw rs1 (spVar varA), push s0 1] ++ la s0 sym.check8bit0Table ++
    sumBytes (check8bit0 s0) tp ++ seqzLookup sym rd := by
  simp [seqz, sumBytes, seqzLookup]

-- The result is written before s0 gets its old value back.
theorem run_seqz (r : sym.Ready s) (h : rd ≠ sp) : s.Computes (seqz sym rd rs1) [gp, tp] [1, varA] rd
    (if rd = s0 then s.reg s0 else bit (s.reg rs1 == 0)) := by
  have w₁ : Within [s0] [1, varA] ∅ s
      (s.run ([sw rs1 (spVar varA), push s0 1] ++ la s0 sym.check8bit0Table)) := by simp
  have ha : (s.run ([sw rs1 (spVar varA), push s0 1] ++ la s0 sym.check8bit0Table)).var varA = s.reg rs1 := by simp
  have h1 : (s.run ([sw rs1 (spVar varA), push s0 1] ++ la s0 sym.check8bit0Table)).var 1 = s.reg s0 := by simp
  have h0 : (s.run ([sw rs1 (spVar varA), push s0 1] ++ la s0 sym.check8bit0Table)).reg s0 = sym.check8bit0Table := by
    simp
  rw [Computes, seqz_eq, run_append, run_append]
  generalize s.run ([sw rs1 (spVar varA), push s0 1] ++ la s0 sym.check8bit0Table) = s₁ at *
  have r₁ := r.within w₁
  have ht : Tests (check8bit0 s0) (fun k => (s.reg rs1).byte k != 0) tp [] ∅ s₁ := by
    intro rd hr k s₂ w
    have h₀ := (w.reg s0 (by simp)).trans h0
    have hr : rd ≠ 0 ∧ rd ≠ sp ∧ rd ≠ s0 := by
      revert rd
      decide
    obtain ⟨w', h'⟩ := check8bit0_spec (k := k) (r₁.within w) h₀ hr.left hr.right.left hr.right.right
    refine ⟨w'.mono, ?_⟩
    rw [h', w.var varA (by simp), ha]
  obtain ⟨w₂, hg⟩ := sumBytes_spec ht (by simp) (by simp)
  generalize s₁.run (sumBytes (check8bit0 s0) tp) = s₂ at *
  have hz := bytes_eq_iff (v := s.reg rs1) (w := 0)
  simp only [byte_zero] at hz
  have hx : (s₂.mem (sym.sameResultTable + s₂.reg gp)).setWidth 32 = bit (s.reg rs1 == 0) := by
    rw [← hz]
    exact sameResult_sum (r₁.within w₂) hg
  have w : Within [s0, gp, tp] [1, varA] ∅ s s₂ := w₁.mono.trans w₂.mono
  have h1' : s₂.var 1 = s.reg s0 := by rw [w₂.var 1 (by simp), h1]
  have w₃ : Within [gp, tp] [1, varA] ∅ s
      ((s₂.setReg tp (sym.sameResultTable + s₂.reg gp)).setReg s0 (s₂.var 1)).next.next.next.next.next := by
    simp only [Within.next_iff]
    refine Within.restore ?_ (by simp) h1'
    simpa using w
  refine ⟨_, w₃, ?_⟩
  by_cases hd : rd = s0
  case pos => simp [seqzLookup, hd, next_setReg, setReg_setReg, h1']
  case neg => simp [seqzLookup, hd, h, next_setReg, setReg_comm hd, setReg_setReg, hx]

theorem seqz_spec (r : sym.Ready s) : Within [gp, tp] [1, varA] ∅ s (s.run (seqz sym tp rs1)) ∧
    (s.run (seqz sym tp rs1)).reg tp = bit (s.reg rs1 == 0) := by
  have c : s.Computes (seqz sym tp rs1) _ _ tp _ := run_seqz r (by simp)
  exact ⟨(c.within (M := ∅) (by simp) (by simp)).mono, c.reg (by simp)⟩

end Seqz

section Seq

-- The scratch array of `seq`.
def Symbols.array (sym : Symbols) : Set Word :=
  Memory.region sym.checkSameArray 256

structure Symbols.ArrayFree (sym : Symbols) (s : State) : Prop where
  scratch : Disjoint sym.array (scratch (s.reg sp))
  rodata  : ∀ o ∈ sym.rodata, Disjoint (Memory.region o.fst o.snd.length) sym.array

theorem mem_array {b : Byte} : sym.checkSameArray + b.setWidth 32 ∈ sym.array := by
  rw [Symbols.array, Memory.mem_region, BitVec.add_comm, BitVec.add_sub_cancel, BitVec.toNat_setWidth]
  omega

theorem check8bitSame_spec {k : Fin 4} (h : s.reg s0 = sym.checkSameArray) (hf : sym.ArrayFree s) (h₀ : rd ≠ 0)
    (hs : rd ≠ sp) (ht : rd ≠ tp) (hr : rd ≠ s0) : Within [rd, tp] [0] sym.array s (s.run (check8bitSame s0 rd k)) ∧
    (s.run (check8bitSame s0 rd k)).reg rd = bit ((s.var varA).byte k != (s.var varB).byte k) := by
  have hn : ∀ b : Byte, sym.checkSameArray + b.setWidth 32 ∉ scratch (s.reg sp) :=
    fun _ => Set.disjoint_left.mp hf.scratch mem_array
  have hx (b c : Byte) : (b.setWidth 32 : Word) = c.setWidth 32 ↔ b = c :=
    ⟨fun h => by simpa using congrArg (byte · 0) h, fun h => h ▸ rfl⟩
  refine ⟨by simp [check8bitSame, h₀, hs.symm, ht, ht.symm, hr.symm, h, mem_array, hn], ?_⟩
  simp [check8bitSame, h₀, hs, hs.symm, ht.symm, hr.symm, h, hn, Function.update_apply, hx]
  split <;> simp_all [bit] <;> rfl

-- The blocks of `seq` before the tests.
def seqLoad (sym : Symbols) (rs1 rs2 : Reg) : List Instr :=
  [sw rs1 (spVar varA), sw rs2 (spVar varB), push s0 1, push s1 2] ++ la s0 sym.checkSameArray

theorem seqLoad_spec (sym : Symbols) (s : State) (rs1 rs2 : Reg) :
    Within [s0] [1, 2, varA, varB] ∅ s (s.run (seqLoad sym rs1 rs2)) ∧
    (s.run (seqLoad sym rs1 rs2)).reg s0 = sym.checkSameArray ∧
    (s.run (seqLoad sym rs1 rs2)).var varA = s.reg rs1 ∧ (s.run (seqLoad sym rs1 rs2)).var varB = s.reg rs2 ∧
    (s.run (seqLoad sym rs1 rs2)).var 1 = s.reg s0 ∧ (s.run (seqLoad sym rs1 rs2)).var 2 = s.reg s1 := by
  simp [seqLoad]

theorem seq_eq : seq sym tp rs1 rs2 = seqLoad sym rs1 rs2 ++ sumBytes (check8bitSame s0) s1 ++
    sameLookup sym ++ [pop s1 2, pop s0 1] := by
  simp [seq, seqLoad, sumBytes, sameLookup]

theorem Symbols.ArrayFree.within (f : sym.ArrayFree s) (w : Within W V M s s') (h : sp ∉ W := by simp) :
    sym.ArrayFree s' where
  scratch := w.reg sp h ▸ f.scratch
  rodata  := f.rodata

theorem seq_spec (r : sym.Ready s) (f : sym.ArrayFree s) :
    Within [gp, tp] [0, 1, 2, varA, varB] sym.array s (s.run (seq sym tp rs1 rs2)) ∧
    (s.run (seq sym tp rs1 rs2)).reg tp = bit (s.reg rs1 == s.reg rs2) := by
  have ⟨w₁, h0, ha, hb, h1, h2⟩ := seqLoad_spec sym s rs1 rs2
  rw [seq_eq, run_append, run_append, run_append]
  generalize s.run (seqLoad sym rs1 rs2) = s₁ at *
  have ht : Tests (check8bitSame s0) (fun k => (s.reg rs1).byte k != (s.reg rs2).byte k) s1 [0] sym.array s₁ := by
    intro rd hr k s₂ w
    have h₀ := (w.reg s0 (by simp)).trans h0
    have hr : rd ≠ 0 ∧ rd ≠ sp ∧ rd ≠ tp ∧ rd ≠ s0 := by
      revert rd
      decide
    have ⟨w', h'⟩ := check8bitSame_spec (k := k) h₀ ((f.within w₁).within w) hr.left hr.right.left
      hr.right.right.left hr.right.right.right
    refine ⟨w'.mono, ?_⟩
    rw [h', w.var varA (by simp), w.var varB (by simp), ha, hb]
  have ⟨w₂, hg⟩ := sumBytes_spec ht (by simp) (by simp)
  generalize s₁.run (sumBytes (check8bitSame s0) s1) = s₂ at *
  have ⟨w₃, ht⟩ := sameLookup_spec ((r.within w₁).within w₂ (by simp) f.rodata) hg
  generalize s₂.run (sameLookup sym) = s₃ at *
  have w : Within [s0, s1, gp, tp] [0, 1, 2, varA, varB] sym.array s s₃ := w₁.mono.trans (w₂.mono.trans w₃.mono)
  have h1' : s₃.var 1 = s.reg s0 := by rw [w₃.var 1 (by simp), w₂.var 1 (by simp), h1]
  have h2' : s₃.var 2 = s.reg s1 := by rw [w₃.var 2 (by simp), w₂.var 2 (by simp), h2]
  refine ⟨?within, ?reg⟩
  case within =>
    have w' : Within [s0, gp, tp] [0, 1, 2, varA, varB] sym.array s (s₃.setReg s1 (s₃.var 2)) :=
      w.mono.restore (by simp) h2'
    simpa [next_setReg] using w'.restore (by simp) h1'
  case reg =>
    rw [← bytes_eq_iff]
    simpa using ht

end Seq

section NonPositive

theorem or1_entry (r : sym.Ready s) (c₀ c₁ : Bool) :
    (s.mem (sym.or1Table + (bit c₀ + bit c₁))).setWidth 32 = bit (c₀ || c₁) := by
  have hi : bit c₀ + bit c₁ = BitVec.ofNat 32 (c₀.toNat + c₁.toNat) := by
    revert c₀ c₁
    decide
  have hb : Rodata.or1Table[c₀.toNat + c₁.toNat]? = some ((bit (c₀ || c₁)).setWidth 8) := by
    revert c₀ c₁
    decide
  rw [hi, r.or1 _ _ hb, setWidth_bit]

theorem nonPositive_eq_msb {v : Word} : (v.msb || (v - 1).msb) = decide (v.toInt ≤ 0) := by
  rw [Bool.eq_iff_iff]
  simp only [BitVec.msb_eq_decide, BitVec.toInt_eq_toNat_cond]
  simp [BitVec.toNat_sub]
  omega

def nonPositiveSigns (rs2 : Reg) : List Instr :=
  msb gp rs2 ++ [.addi tp rs2 (-1)] ++ msb tp tp ++ [.add gp gp tp]

theorem nonPositiveSigns_spec (h : rs2 ≠ gp) : Within [gp, tp] [varC] ∅ s (s.run (nonPositiveSigns rs2)) ∧
    (s.run (nonPositiveSigns rs2)).reg gp = bit (s.reg rs2).msb + bit (s.reg rs2 - 1).msb := by
  have w : Within [gp] [varC] ∅ s (s.run (msb gp rs2)) := by simp [within_run_msb]
  have hg : (s.run (msb gp rs2)).reg gp = bit (s.reg rs2).msb := reg_run_msb (by simp)
  have h2 := w.reg rs2 (by simpa using h)
  simp only [nonPositiveSigns, run_append]
  generalize s.run (msb gp rs2) = s₁ at *
  have w' : Within [gp, tp] [varC] ∅ s (s₁.run [.addi tp rs2 (-1)]) := by simpa using w.mono
  have hg' : (s₁.run [.addi tp rs2 (-1)]).reg gp = bit (s.reg rs2).msb := by simpa using hg
  have ht' : (s₁.run [.addi tp rs2 (-1)]).reg tp = s.reg rs2 - 1 := by
    rw [run_cons, run_nil, exec_addi, reg_next, reg_setReg, if_pos (by simp), h2, BitVec.sub_eq_add_neg]
    rfl
  generalize s₁.run [.addi tp rs2 (-1)] = s₂ at *
  have w₃ : Within [tp] [varC] ∅ s₂ (s₂.run (msb tp tp)) := by simp [within_run_msb]
  have ht₃ : (s₂.run (msb tp tp)).reg tp = bit (s₂.reg tp).msb := reg_run_msb (by simp)
  refine ⟨by simpa using w'.trans w₃.mono, ?_⟩
  simp [ht₃, ht', w₃.reg gp, hg']

theorem checkNonPositive_spec (r : sym.Ready s) (h : rs2 ≠ gp) :
    Within [gp, tp] [varC] ∅ s (s.run (checkNonPositive sym rs2)) ∧
    (s.run (checkNonPositive sym rs2)).reg tp = bit (decide ((s.reg rs2).toInt ≤ 0)) := by
  have ⟨w, hg⟩ := nonPositiveSigns_spec (s := s) h
  have hx := or1_entry (r.within w) (s.reg rs2).msb (s.reg rs2 - 1).msb
  have e : checkNonPositive sym rs2 =
      nonPositiveSigns rs2 ++ (la tp sym.or1Table ++ [.add tp gp tp, lbu tp (at0 tp)]) := by
    simp [checkNonPositive, nonPositiveSigns]
  rw [e, run_append, ← nonPositive_eq_msb, ← hx, ← hg]
  generalize s.run (nonPositiveSigns rs2) = s₁ at *
  refine ⟨by simpa using w, ?_⟩
  simp [BitVec.add_comm]

end NonPositive

section Correct

variable {code : List Instr}

-- The code leaves the condition `c` in tp.
structure Decides (sym : Symbols) (s : State) (code : List Instr) (c : Bool) : Prop where
  straight : Straight code
  within   : Within [gp, tp] [0, 1, 2, 3, varA, varB, varC, varD] sym.array s (s.run code)
  reg      : (s.run code).reg tp = bit c

theorem Decides.of_computes (h : s.Computes code [gp, tp] V tp (bit c)) (hs : Straight code)
    (hv : V ⊆ [0, 1, 2, 3, varA, varB, varC, varD] := by simp) : Decides sym s code c where
  straight := hs
  within   := (h.within (M := sym.array) (by simp) (by simp)).mono ⟨by simp, hv, by simp⟩
  reg      := h.reg (by simp)

theorem Decides.simulates (d : Decides sym s code c) (high : Bool) (ht : target &&& ~~~1 = target)
    (hl : label &&& ~~~1 = label) :
    s.Simulates (code ++ branchResolve target high label) (scratch (s.reg sp) ∪ sym.array)
      (s.jump (if c == high then target else label)) := by
  intro fetch hc
  have ⟨w, hp⟩ := branchResolve_spec high d.reg ht hl
  have hd : Straight (code ++ branchResolve target high label).dropLast := by
    have e : branchResolve target high label = slli tp tp 2 ++ [.add tp sp tp] ++
        branchSlots target high label ++ [lw tp ⟨-varB * 4, tp⟩] ++ [jr tp] := by simp [branchResolve_eq]
    rw [e, ← List.append_assoc, List.dropLast_concat]
    cases high <;> simp [branchSlots, d.straight]
  refine ⟨_, steps_eq_run hc hd, ?_⟩
  rw [run_append]
  have w' := d.within.trans w.mono
  exact ⟨hp, w'.reg, fun a ha => w'.mem a (fun h => ha (.inr h)) (fun h => ha (.inl h))⟩

theorem aligned {v : Word} (h : v.toNat % 2 = 0) : v &&& ~~~1 = v := by
  have h₀ : v.getLsbD 0 = false := by
    simp only [BitVec.getLsbD, Nat.testBit_zero, decide_eq_false_iff_not]
    omega
  refine eq_of_getLsbD_eq fun i hi => ?_
  rw [getLsbD_and, getLsbD_not]
  cases i
  case zero => rw [h₀, Bool.false_and]
  case succ i =>
    have h₁ : (1 : Word).getLsbD (i + 1) = false := by simp
    rw [h₁, decide_eq_true hi, Bool.not_false, Bool.and_true, Bool.and_true]

-- The expansion of a branch continues at `target` if `c` holds, and otherwise at the label behind it.
def Branches (sym : Symbols) (s : State) (code : Word → List Instr) (target : Word) (c : Prop) [Decidable c] : Prop :=
  ∀ label, label = s.pc + BitVec.ofNat 32 (4 * (code label).length) →
    s.Simulates (code label) (scratch (s.reg sp) ∪ sym.array) (s.jump (if c then target else label))

theorem Decides.branches {p : Prop} [Decidable p] {branch : Word → List Instr} (d : Decides sym s code c)
    (e : ∀ label, branch label = code ++ branchResolve target high label) (ht : target.toNat % 2 = 0)
    (hs : s.pc.toNat % 2 = 0) (hp : (c == high) = decide p) : Branches sym s branch target p := by
  intro label hl
  have hl' : label.toNat % 2 = 0 := by
    rw [hl]
    simp
    omega
  have h := d.simulates high (aligned ht) (aligned hl')
  rw [e label]
  simpa [hp] using h

theorem decides_seqz (rs1 : Reg) (r : sym.Ready s) : Decides sym s (seqz sym tp rs1) (s.reg rs1 == 0) where
  straight := by simp [seqz, check8bit0]
  within   := (seqz_spec r).left.mono
  reg      := (seqz_spec r).right

theorem decides_seq (r : sym.Ready s) (f : sym.ArrayFree s) :
    Decides sym s (seq sym tp rs1 rs2) (s.reg rs1 == s.reg rs2) where
  straight := by simp [seq, check8bitSame]
  within   := (seq_spec r f).left.mono
  reg      := (seq_spec r f).right

theorem decides_msb : Decides sym s (msb tp rs1) (s.reg rs1).msb where
  straight := straight_msb
  within   := by simp [within_run_msb]
  reg      := reg_run_msb (by simp)

theorem decides_nonPositive (r : sym.Ready s) (h : rs2 ≠ gp) :
    Decides sym s (checkNonPositive sym rs2) (decide ((s.reg rs2).toInt ≤ 0)) where
  straight := by simp [checkNonPositive, straight_msb]
  within   := (checkNonPositive_spec r h).left.mono
  reg      := (checkNonPositive_spec r h).right

theorem decides_slt (r : sym.Ready s) : Decides sym s (slt sym tp rs1 rs2) ((s.reg rs1).slt (s.reg rs2)) :=
  .of_computes (run_slt r) straight_sltTemplate

theorem decides_sltu (r : sym.Ready s) : Decides sym s (sltu sym tp rs1 rs2) ((s.reg rs1).ult (s.reg rs2)) :=
  .of_computes (run_sltu r) straight_sltTemplate

-- The tests that the branches select on the register numbers.
def equal (sym : Symbols) (rs1 rs2 : Reg) : List Instr :=
  if rs2 = x0 then seqz sym tp rs1 else if rs1 = x0 then seqz sym tp rs2 else seq sym tp rs1 rs2

theorem beq_eq : beq sym rs1 rs2 target label = equal sym rs1 rs2 ++ branchResolve target true label := by
  rw [beq, equal]
  by_cases h₂ : rs2 = x0
  case pos => simp [h₂]
  by_cases h₁ : rs1 = x0
  case pos => rw [if_neg h₂, if_neg h₂, if_pos h₁, if_pos h₁, beq, if_pos h₁]
  case neg => simp only [if_neg h₂, if_neg h₁]

theorem bne_eq : bne sym rs1 rs2 target label = equal sym rs1 rs2 ++ branchResolve target false label := by
  rw [bne, equal]
  by_cases h₂ : rs2 = x0
  case pos => simp [h₂]
  by_cases h₁ : rs1 = x0
  case pos => rw [if_neg h₂, if_neg h₂, if_pos h₁, if_pos h₁, bne, if_pos h₁]
  case neg => simp only [if_neg h₂, if_neg h₁]

theorem decides_equal (r : sym.Ready s) (f : sym.ArrayFree s) :
    Decides sym s (equal sym rs1 rs2) (s.reg rs1 == s.reg rs2) := by
  rw [equal]
  split
  case isTrue h₂ => simpa [h₂] using decides_seqz rs1 r
  case isFalse h₂ =>
    split
    case isTrue h₁ => simpa [h₁, Bool.beq_comm, eq_comm] using decides_seqz rs2 r
    case isFalse => exact decides_seq r f

section Conditions

variable (r : sym.Ready s) (f : sym.ArrayFree s) (h : rs2 ≠ gp)
variable (ht : target.toNat % 2 = 0) (hs : s.pc.toNat % 2 = 0)

include r ht hs

include f in
theorem beq_branches : Branches sym s (beq sym rs1 rs2 target) target (s.reg rs1 = s.reg rs2) :=
  (decides_equal r f).branches (fun _ => beq_eq) ht hs (by rw [Bool.eq_iff_iff]; simp)

include f in
theorem bne_branches : Branches sym s (bne sym rs1 rs2 target) target (s.reg rs1 ≠ s.reg rs2) :=
  (decides_equal r f).branches (fun _ => bne_eq) ht hs (by rw [Bool.eq_iff_iff]; simp)

include h in
theorem blt_branches : Branches sym s (blt sym rs1 rs2 target) target ((s.reg rs1).toInt < (s.reg rs2).toInt) := by
  by_cases h₂ : rs2 = x0
  case pos =>
    refine decides_msb.branches (fun _ => by rw [blt, if_pos h₂]) ht hs ?_
    simp [h₂, ← BitVec.slt_zero_eq_msb, BitVec.slt_eq_decide]
  by_cases h₁ : rs1 = x0
  case pos =>
    refine (decides_nonPositive r h).branches (fun _ => by rw [blt, if_neg h₂, if_pos h₁]) ht hs ?_
    simp [h₁, ← decide_not]
  case neg =>
    refine (decides_slt r).branches (fun _ => by rw [blt, if_neg h₂, if_neg h₁]) ht hs ?_
    simp [BitVec.slt_eq_decide]

include h in
theorem bge_branches : Branches sym s (bge sym rs1 rs2 target) target ((s.reg rs1).toInt ≥ (s.reg rs2).toInt) := by
  by_cases h₁ : rs1 = x0
  case pos =>
    refine (decides_nonPositive r h).branches (fun _ => by rw [bge, if_pos h₁]) ht hs ?_
    simp [h₁]
  case neg =>
    refine (decides_slt r).branches (fun _ => by rw [bge, if_neg h₁]) ht hs ?_
    simp [BitVec.slt_eq_decide, ← decide_not]

theorem bltu_branches : Branches sym s (bltu sym rs1 rs2 target) target (s.reg rs1 < s.reg rs2) :=
  (decides_sltu r).branches (fun _ => rfl) ht hs (by simp [BitVec.ult, BitVec.lt_def])

theorem bgeu_branches : Branches sym s (bgeu sym rs1 rs2 target) target (s.reg rs1 ≥ s.reg rs2) :=
  (decides_sltu r).branches (fun _ => rfl) ht hs (by simp [BitVec.ult, BitVec.le_def, ← decide_not])

end Conditions

theorem branch_implements (r : sym.Ready s) (f : sym.ArrayFree s) (h : rs2 ≠ gp) (ht : target.toNat % 2 = 0)
    (hs : s.pc.toNat % 2 = 0) :
    Branches sym s (beq sym rs1 rs2 target) target (s.reg rs1 = s.reg rs2) ∧
    Branches sym s (bne sym rs1 rs2 target) target (s.reg rs1 ≠ s.reg rs2) ∧
    Branches sym s (blt sym rs1 rs2 target) target ((s.reg rs1).toInt < (s.reg rs2).toInt) ∧
    Branches sym s (bge sym rs1 rs2 target) target ((s.reg rs1).toInt ≥ (s.reg rs2).toInt) ∧
    Branches sym s (bltu sym rs1 rs2 target) target (s.reg rs1 < s.reg rs2) ∧
    Branches sym s (bgeu sym rs1 rs2 target) target (s.reg rs1 ≥ s.reg rs2) :=
  ⟨beq_branches r f ht hs, bne_branches r f ht hs, blt_branches r h ht hs, bge_branches r h ht hs,
    bltu_branches r ht hs, bgeu_branches r ht hs⟩

theorem arrayFree_loaded {base stack : Word} (h : base.toNat + 0x48600 + 28 ≤ stack.toNat) :
    (Symbols.at base).ArrayFree (loaded base stack) where
  scratch := by
    have hs : (loaded base stack).reg sp = stack := by simp [loaded, State.reg]
    have hb : (stack - 28).toNat = stack.toNat - 28 := by bv_omega
    rw [hs]
    exact Memory.disjoint_region (by rw [hb]; simp only [Symbols.at]; omega) (by rw [hb]; omega)
  rodata o ho := by
    have := rodata_region (by omega) o ho
    exact (Memory.disjoint_region this.left (by omega)).symm

theorem branch_implements_loaded :
    let sym := Symbols.at 0x80100000
    let s := loaded 0x80100000 0x80200000
    Branches sym s (beq sym 10 0 0x400) 0x400 (s.reg 10 = s.reg 0) ∧
    Branches sym s (bne sym 10 0 0x400) 0x400 (s.reg 10 ≠ s.reg 0) ∧
    Branches sym s (blt sym 10 0 0x400) 0x400 ((s.reg 10).toInt < (s.reg 0).toInt) ∧
    Branches sym s (bge sym 10 0 0x400) 0x400 ((s.reg 10).toInt ≥ (s.reg 0).toInt) ∧
    Branches sym s (bltu sym 10 0 0x400) 0x400 (s.reg 10 < s.reg 0) ∧
    Branches sym s (bgeu sym 10 0 0x400) 0x400 (s.reg 10 ≥ s.reg 0) :=
  branch_implements (ready_loaded (by decide)) (arrayFree_loaded (by decide)) (by decide) (by decide) (by decide)

end Correct

end InstReplace
