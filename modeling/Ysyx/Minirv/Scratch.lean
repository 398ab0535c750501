import Ysyx.Minirv.Replace
import Ysyx.Rv32.Theorems.Straight
import Mathlib.Tactic.Abel

-- The macros keep their intermediate results in the seven words below the stack pointer. Here these
-- words are variables of the state: a load or store of `SP_VAR(n)` reads or assigns variable `n`.

open Rv32 InstReplace BitVec

namespace InstReplace

def varAddr (base : Word) (n : Fin 8) : Word :=
  base - BitVec.ofNat 32 (4 * n)

-- The 28 bytes below the stack pointer.
def scratch (base : Word) : Set Word :=
  Memory.region (base - 28) 28

theorem offset_sub_offset (a b c d : Word) : a - b + c - (a - d) = d - b + c := by
  abel

theorem varAddr_sub_varAddr {base : Word} {n m : Fin 8} (h : m ≠ n) {i : Nat} (hi : i < 4) :
    4 ≤ (varAddr base m + BitVec.ofNat 32 i - varAddr base n).toNat := by
  have hd : ∀ n m : Fin 8, m ≠ n → ∀ i : Fin 4,
      4 ≤ (BitVec.ofNat 32 (4 * n) - BitVec.ofNat 32 (4 * m) + BitVec.ofNat 32 i).toNat := by decide
  rw [varAddr, varAddr, offset_sub_offset]
  exact hd n m h ⟨i, hi⟩

theorem region_varAddr_subset {base : Word} {n : Fin 8} (h : n ≠ 0) :
    Memory.region (varAddr base n) 4 ⊆ scratch base := by
  have hd : ∀ n : Fin 8, n ≠ 0 → ∀ i : Fin 4,
      (28 - BitVec.ofNat 32 (4 * n) + BitVec.ofNat 32 i).toNat < 28 := by decide
  intro x hx
  obtain ⟨i, hi, rfl⟩ := (Memory.mem_region_iff (by decide)).mp hx
  rw [scratch, Memory.mem_region, varAddr, offset_sub_offset]
  exact hd n h ⟨i, hi⟩

end InstReplace

namespace Rv32.State

variable {s : State} {r r' : Reg} {n m : Fin 8} {b : Fin 4} {v : Word} {a : Word}

def var (s : State) (n : Fin 8) : Word :=
  s.mem.load32 (varAddr (s.reg sp) n)

def setVar (s : State) (n : Fin 8) (v : Word) : State :=
  s.setMem (s.mem.store (varAddr (s.reg sp) n) 4 v)

-- Stores the low byte of `v` as byte `b` of variable `n`.
def setVarByte (s : State) (n : Fin 8) (b : Fin 4) (v : Word) : State :=
  s.setMem (s.mem.store (varAddr (s.reg sp) n + BitVec.ofNat 32 b) 1 v)

-- Stores the low byte of `v` at address `a`.
def setMemByte (s : State) (a v : Word) : State :=
  s.setMem (s.mem.store a 1 v)

@[simp] theorem reg_setMemByte : (s.setMemByte a v).reg r = s.reg r := (rfl)

@[simp] theorem mem_setMemByte : (s.setMemByte a v).mem = Function.update s.mem a (v.byte 0) :=
  Memory.store_one

@[simp] theorem reg_setVar : (s.setVar n v).reg r = s.reg r := (rfl)
@[simp] theorem reg_setVarByte : (s.setVarByte n b v).reg r = s.reg r := (rfl)

@[simp] theorem var_next : s.next.var n = s.var n := (rfl)
@[simp] theorem var_jump : (s.jump a).var n = s.var n := (rfl)

@[simp] theorem var_setReg (h : r ≠ sp) : (s.setReg r v).var n = s.var n := by
  simp [var, h.symm]

@[simp] theorem var_setVar : (s.setVar n v).var m = if m = n then v else s.var m := by
  split
  case isTrue h => exact h ▸ Memory.load32_store_same (by decide)
  case isFalse h =>
    refine Memory.load32_congr fun i hi => Memory.store_of_not_mem ?_
    exact Nat.not_lt.mpr <| varAddr_sub_varAddr h hi

@[simp] theorem var_setVarByte : (s.setVarByte n b v).var m =
    if m = n then (s.var m).setByte b (v.byte 0) else s.var m := by
  split
  case isTrue h =>
    subst h
    refine eq_of_byte fun i hi => ?_
    rw [byte_setByte hi, var, setVarByte, reg_setMem, mem_setMem, Memory.byte_load32 hi,
      Memory.store_one, Function.update_apply]
    have : BitVec.ofNat 32 i = BitVec.ofNat 32 b ↔ i = b := by
      rw [BitVec.toNat_eq, BitVec.toNat_ofNat, BitVec.toNat_ofNat]
      omega
    simp [this, var, Memory.byte_load32 hi]
  case isFalse h =>
    refine Memory.load32_congr fun i hi => Memory.store_of_not_mem ?_
    exact mt (Memory.region_byte_subset b.isLt (by decide) ·) <|
      Nat.not_lt.mpr <| varAddr_sub_varAddr h hi

@[simp] theorem var_setMemByte (h : n ≠ 0) (ha : a ∉ scratch (s.reg sp)) :
    (s.setMemByte a v).var n = s.var n := by
  refine Memory.load32_congr fun i hi => ?_
  have hr : varAddr (s.reg sp) n + BitVec.ofNat 32 i ∈ scratch (s.reg sp) :=
    region_varAddr_subset h <| (Memory.mem_region_iff (by decide)).mpr ⟨i, hi, rfl⟩
  rw [mem_setMemByte, Function.update_of_ne, reg_setMemByte]
  exact fun h => ha (h ▸ hr)

theorem mem_setVar (h : n ≠ 0) (ha : a ∉ scratch (s.reg sp)) : (s.setVar n v).mem a = s.mem a :=
  Memory.store_of_not_mem <| mt (region_varAddr_subset h ·) ha

theorem mem_setVarByte (h : n ≠ 0) (ha : a ∉ scratch (s.reg sp)) :
    (s.setVarByte n b v).mem a = s.mem a :=
  Memory.store_of_not_mem <|
    mt (fun hx => region_varAddr_subset h <| Memory.region_byte_subset b.isLt (by decide) hx) ha

section Exec

theorem addr_spVarByte : s.addr (BitVec.ofInt 12 (spVarByte n b).off) sp =
    varAddr (s.reg sp) n + BitVec.ofNat 32 b := by
  have : ∀ (n : Fin 8) (b : Fin 4), (BitVec.ofInt 12 (spVarByte n b).off).signExtend 32 =
      BitVec.ofNat 32 b - BitVec.ofNat 32 (4 * n) := by decide
  rw [addr, this, varAddr]
  abel

theorem addr_spVar : s.addr (BitVec.ofInt 12 (spVar n).off) sp = varAddr (s.reg sp) n := by
  rw [spVar, addr_spVarByte]
  simp

@[simp] theorem exec_lw_spVar : s.exec (InstReplace.lw r (spVar n)) = (s.setReg r (s.var n)).next := by
  rw [InstReplace.lw, exec, show (spVar n).base = sp from rfl, addr_spVar, var]

@[simp] theorem exec_lbu_spVarByte : s.exec (InstReplace.lbu r (spVarByte n b)) =
    (s.setReg r (((s.var n).byte b).setWidth 32)).next := by
  rw [InstReplace.lbu, exec, show (spVarByte n b).base = sp from rfl, addr_spVarByte, var,
    Memory.byte_load32 b.isLt]

@[simp] theorem exec_sw_spVar : s.exec (InstReplace.sw r (spVar n)) = (s.setVar n (s.reg r)).next := by
  rw [InstReplace.sw, exec, show (spVar n).base = sp from rfl, addr_spVar, setVar]

@[simp] theorem exec_sb_spVarByte : s.exec (InstReplace.sb r (spVarByte n b)) =
    (s.setVarByte n b (s.reg r)).next := by
  rw [InstReplace.sb, exec, show (spVarByte n b).base = sp from rfl, addr_spVarByte, setVarByte]

@[simp] theorem exec_push : s.exec (push r n) = (s.setVar n (s.reg r)).next := exec_sw_spVar
@[simp] theorem exec_pop : s.exec (pop r n) = (s.setReg r (s.var n)).next := exec_lw_spVar

@[simp] theorem exec_add {rd rs1 rs2 : Reg} : s.exec (.add rd rs1 rs2) =
    (s.setReg rd (s.reg rs1 + s.reg rs2)).next := (rfl)

@[simp] theorem exec_addi {rd rs1 : Reg} {imm : BitVec 12} : s.exec (.addi rd rs1 imm) =
    (s.setReg rd (s.reg rs1 + imm.signExtend 32)).next := (rfl)

@[simp] theorem exec_lbu_at0 : s.exec (InstReplace.lbu r (at0 r')) =
    (s.setReg r ((s.mem (s.reg r')).setWidth 32)).next := by
  simp [InstReplace.lbu, exec, at0, addr]

@[simp] theorem exec_sb_at0 : s.exec (InstReplace.sb r (at0 r')) =
    (s.setMemByte (s.reg r') (s.reg r)).next := by
  simp [InstReplace.sb, exec, at0, addr, setMemByte]

@[simp] theorem exec_lw_at0 : s.exec (InstReplace.lw r (at0 r')) =
    (s.setReg r (s.mem.load32 (s.reg r'))).next := by
  simp [InstReplace.lw, exec, at0, addr]

@[simp] theorem exec_mv : s.exec (mv r r') = (s.setReg r (s.reg r')).next := by
  simp [mv, exec]

@[simp] theorem exec_li {imm : BitVec 12} : s.exec (li r imm) = (s.setReg r (imm.signExtend 32)).next := by
  simp [li, exec]

theorem hi_append_lo (a : Word) : (hi a ++ 0#12) + (lo a).signExtend 32 = a := by
  have hs : ((lo a).msb = true) ↔ 2048 ≤ a.toNat % 4096 := by
    simp [lo, BitVec.msb_eq_decide]
  apply BitVec.eq_of_toNat_eq
  simp only [BitVec.toNat_add, BitVec.toNat_append, BitVec.toNat_signExtend, hs]
  simp [hi, lo, Nat.shiftLeft_eq, Nat.shiftRight_eq_div_pow]
  split <;> omega

@[simp] theorem run_la : s.run (la r a) = (s.setReg r a).next.next := by
  by_cases h : r = 0
  case pos => simp [la, exec, h, setReg]
  case neg => simp [la, exec, h, next_setReg, setReg_setReg, hi_append_lo]

end Exec

@[simp] theorem straight_lw {a : Addr} : (InstReplace.lw r a).Straight := trivial
@[simp] theorem straight_lbu {a : Addr} : (InstReplace.lbu r a).Straight := trivial
@[simp] theorem straight_sw {a : Addr} : (InstReplace.sw r a).Straight := trivial
@[simp] theorem straight_sb {a : Addr} : (InstReplace.sb r a).Straight := trivial
@[simp] theorem straight_push : (push r n).Straight := trivial
@[simp] theorem straight_pop : (pop r n).Straight := trivial
@[simp] theorem straight_mv : (mv r r').Straight := trivial
@[simp] theorem straight_li {imm : BitVec 12} : (li r imm).Straight := trivial

@[simp] theorem straight_la : Straight (la r a) := by
  simp [la]

-- The states `s` and `s'` have the same registers except for `W`, the same variables except for `V`,
-- and the same memory outside of `M` and the scratch area.
structure Within (W : List Reg) (V : List (Fin 8)) (M : Set Word) (s s' : State) : Prop where
  reg : ∀ r, r ∉ W → s'.reg r = s.reg r
  var : ∀ n, n ∉ V → s'.var n = s.var n
  mem : ∀ a, a ∉ M → a ∉ scratch (s.reg sp) → s'.mem a = s.mem a

namespace Within

variable {W W' : List Reg} {V V' : List (Fin 8)} {M M' : Set Word} {s s' s₁ s₂ s₃ : State}

@[simp] theorem refl : Within W V M s s where
  reg _ _ := rfl
  var _ _ := rfl
  mem _ _ _ := rfl

theorem symm (w : Within W V M s s') (h : sp ∉ W) : Within W V M s' s where
  reg r hr := (w.reg r hr).symm
  var n hn := (w.var n hn).symm
  mem a hm ha := (w.mem a hm (w.reg sp h ▸ ha)).symm

theorem mono (w : Within W' V' M' s s') (h : W' ⊆ W ∧ V' ⊆ V ∧ M' ⊆ M := by simp) : Within W V M s s' where
  reg r hr := w.reg r (mt (@h.left r) hr)
  var n hn := w.var n (mt (@h.right.left n) hn)
  mem a hm := w.mem a (mt (@h.right.right a) hm)

theorem trans (w₁ : Within W V M s₁ s₂) (w₂ : Within W V M s₂ s₃) (h : sp ∉ W := by simp) :
    Within W V M s₁ s₃ where
  reg r hr := (w₂.reg r hr).trans (w₁.reg r hr)
  var n hn := (w₂.var n hn).trans (w₁.var n hn)
  mem a hm ha := (w₂.mem a hm (w₁.reg sp h ▸ ha)).trans (w₁.mem a hm ha)

-- A block that stays within `W` and `V` can be dropped from the end of a run.
theorem drop (w : Within W V M s₁ s₂) (h : sp ∉ W) : Within W V M s s₂ ↔ Within W V M s s₁ where
  mp w'  := w'.trans (w.symm h) h
  mpr w' := w'.trans w h

@[simp] theorem jump_iff : Within W V M s (s'.jump a) ↔ Within W V M s s' where
  mp w  := { reg := w.reg, var := w.var, mem := w.mem }
  mpr w := { reg := w.reg, var := w.var, mem := w.mem }

@[simp] theorem next_iff : Within W V M s s'.next ↔ Within W V M s s' :=
  jump_iff

@[simp] theorem setReg_iff (h : r ∈ W) (hs : sp ∉ W) :
    Within W V M s (s'.setReg r v) ↔ Within W V M s s' := by
  refine drop ⟨?reg, ?var, ?mem⟩ hs
  case reg =>
    intro r' hr
    have hn : r' ≠ r := fun h' => hr (h' ▸ h)
    simp [hn]
  case var => exact fun n _ => var_setReg fun h' => hs (h' ▸ h)
  case mem => simp

-- A register that has been spilled is given its old value back.
theorem restore (w : Within (r :: W) V M s s') (hs : r ≠ sp) (hv : v = s.reg r) :
    Within W V M s (s'.setReg r v) where
  reg r' hr := by
    by_cases h : r' = r
    case pos =>
      subst h
      by_cases h₀ : r' = 0 <;> simp [h₀, hv]
    case neg => simp [h, w.reg r' (by simp [h, hr])]
  var n hn := by rw [var_setReg hs, w.var n hn]
  mem a hm ha := by rw [mem_setReg, w.mem a hm ha]

@[simp] theorem setVar_iff (h : n ∈ V) (hn : n ≠ 0) (hs : sp ∉ W) :
    Within W V M s (s'.setVar n v) ↔ Within W V M s s' := by
  refine drop ⟨?reg, ?var, ?mem⟩ hs
  case reg => simp
  case var =>
    intro m hm
    have hn : m ≠ n := fun h' => hm (h' ▸ h)
    simp [hn]
  case mem => exact fun a _ => mem_setVar hn

@[simp] theorem setVarByte_iff (h : n ∈ V) (hn : n ≠ 0) (hs : sp ∉ W) :
    Within W V M s (s'.setVarByte n b v) ↔ Within W V M s s' := by
  refine drop ⟨?reg, ?var, ?mem⟩ hs
  case reg => simp
  case var =>
    intro m hm
    have hn : m ≠ n := fun h' => hm (h' ▸ h)
    simp [hn]
  case mem => exact fun a _ => mem_setVarByte hn

-- A store outside of the scratch area may still change the word at the stack pointer.
@[simp] theorem setMemByte_iff (h : a ∈ M) (ha : a ∉ scratch (s'.reg sp)) (hv : 0 ∈ V) (hs : sp ∉ W) :
    Within W V M s (s'.setMemByte a v) ↔ Within W V M s s' := by
  refine drop ⟨?reg, ?var, ?mem⟩ hs
  case reg => simp
  case var => exact fun n hn => var_setMemByte (fun h => hn (h ▸ hv)) ha
  case mem =>
    intro x hx _
    have hn : x ≠ a := fun h' => hx (h' ▸ h)
    rw [mem_setMemByte, Function.update_of_ne hn]

end Within

-- The code leaves `v` in `rd` and otherwise stays within `W` and `V`. The result is written last, so
-- `rd` may be any register.
def Computes (s : State) (code : List Instr) (W : List Reg) (V : List (Fin 8)) (rd : Reg) (v : Word) : Prop :=
  ∃ s', Within W V ∅ s s' ∧ s.run code = s'.setReg rd v

namespace Computes

variable {code : List Instr} {W : List Reg} {V : List (Fin 8)} {M : Set Word} {s : State} {rd : Reg}

theorem within (c : s.Computes code W V rd v) (h : sp ∉ W) (hr : rd ≠ sp) :
    Within (rd :: W) V M s (s.run code) := by
  have ⟨s', w, e⟩ := c
  have hs : sp ∉ rd :: W := by simp_all [eq_comm]
  rw [e, Within.setReg_iff (by simp) hs]
  exact w.mono

theorem reg (c : s.Computes code W V rd v) (h : rd ≠ 0) : (s.run code).reg rd = v := by
  have ⟨_, _, e⟩ := c
  simp [e, h]

theorem of_within (w : Within (rd :: W) V ∅ s (s.run code)) (h : rd ≠ sp) (hv : rd ≠ 0 → (s.run code).reg rd = v) :
    s.Computes code W V rd v := by
  refine ⟨(s.run code).setReg rd (s.reg rd), w.restore h rfl, ?_⟩
  by_cases h₀ : rd = 0
  case pos => simp [h₀, setReg_zero]
  case neg => rw [setReg_setReg, ← hv h₀, setReg_reg]

-- A block that prepares the operands stays within the same bounds.
theorem prepend {pre : List Instr} (w : Within W V ∅ s (s.run pre)) (c : (s.run pre).Computes code W V rd v)
    (h : sp ∉ W := by simp) : s.Computes (pre ++ code) W V rd v := by
  have ⟨s', w', e⟩ := c
  exact ⟨s', w.trans w' h, by rw [run_append, e]⟩

end Computes

-- Wherever the code is placed, it executes from its first to its last instruction and leaves a state
-- that differs from `s'` only in gp, tp and the memory `M`.
def Simulates (s : State) (code : List Instr) (M : Set Word) (s' : State) : Prop :=
  ∀ fetch, CodeAt fetch s.pc code → ∃ s'', steps fetch code.length s = some s'' ∧
    s''.pc = s'.pc ∧ (∀ r, r ∉ [gp, tp] → s''.reg r = s'.reg r) ∧ (∀ a, a ∉ M → s''.mem a = s'.mem a)

-- The code has the effect of an instruction that writes `v` to `rd` and goes on behind the code.
def Implements (s : State) (code : List Instr) (rd : Reg) (v : Word) : Prop :=
  s.Simulates code (scratch (s.reg sp)) <| (s.setReg rd v).jump (s.pc + BitVec.ofNat 32 (4 * code.length))

theorem Computes.implements {code : List Instr} {W : List Reg} {V : List (Fin 8)} {rd : Reg}
    (c : s.Computes code W V rd v) (hs : Straight code) (hw : W ⊆ [gp, tp] := by simp) :
    s.Implements code rd v := by
  intro fetch hc
  have ⟨s', w, e⟩ := c
  refine ⟨s.run code, steps_eq_run hc fun i h => hs i (List.mem_of_mem_dropLast h), run_pc hs, ?reg, ?mem⟩
  case reg =>
    intro r hr
    rw [e, reg_jump, reg_setReg, reg_setReg, w.reg r (mt (@hw r) hr)]
  case mem =>
    intro a ha
    rw [e, mem_jump, mem_setReg, mem_setReg, w.mem a (by simp) ha]

-- The value is determined by the code, unless it goes to a register that holds no values or is not looked at.
theorem Implements.unique {code : List Instr} {rd : Reg} {v v' : Word} (h : s.Implements code rd v)
    (h' : s.Implements code rd v') (hl : 4 * code.length ≤ 2 ^ 32) (h₀ : rd ≠ 0) (hr : rd ∉ [gp, tp]) : v = v' := by
  have ⟨fetch, hc⟩ := exists_codeAt s.pc hl
  have ⟨s₁, hs₁, _, hv, _⟩ := h fetch hc
  have ⟨s₂, hs₂, _, hv', _⟩ := h' fetch hc
  cases hs₁.symm.trans hs₂
  have := (hv rd hr).symm.trans (hv' rd hr)
  simpa [h₀] using this

-- The code leaves `v` in `rd` and goes on behind it. Of the other registers it changes only those of `W`, of
-- the memory only the scratch area.
def Delivers (s : State) (code : List Instr) (W : List Reg) (rd : Reg) (v : Word) : Prop :=
  ∀ fetch, CodeAt fetch s.pc code → ∃ s', steps fetch code.length s = some s' ∧
    s'.pc = s.pc + BitVec.ofNat 32 (4 * code.length) ∧
    (∀ r, r = rd ∨ r ∉ W → s'.reg r = (s.setReg rd v).reg r) ∧ (∀ a, a ∉ scratch (s.reg sp) → s'.mem a = s.mem a)

theorem Computes.delivers {code : List Instr} {W : List Reg} {V : List (Fin 8)} {rd : Reg}
    (c : s.Computes code W V rd v) (hs : Straight code) : s.Delivers code W rd v := by
  intro fetch hc
  have ⟨s', w, e⟩ := c
  refine ⟨s.run code, steps_eq_run hc fun i h => hs i (List.mem_of_mem_dropLast h), run_pc hs, ?reg, ?mem⟩
  case reg =>
    intro r hr
    by_cases hd : r = rd
    case pos => simp only [e, hd, reg_setReg, true_and]; split <;> simp_all
    case neg => rw [e, reg_setReg, reg_setReg, if_neg (by simp [hd]), if_neg (by simp [hd]),
        w.reg r (hr.resolve_left hd)]
  case mem =>
    intro a ha
    rw [e, mem_setReg, w.mem a (by simp) ha]

end Rv32.State
