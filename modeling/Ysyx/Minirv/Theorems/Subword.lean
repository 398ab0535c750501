import Ysyx.Minirv.Theorems.Shift

-- The expansions of the loads and stores of bytes and halfwords.

open Rv32 State InstReplace BitVec

namespace InstReplace

-- The address of an operand.
def Addr.target (a : Addr) (s : State) : Word :=
  s.reg a.base + BitVec.ofInt 32 a.off

-- The offset and its successor fit into an immediate.
def Addr.Fits (a : Addr) : Prop :=
  -2048 ≤ a.off ∧ a.off + 1 < 2048

instance : DecidablePred Addr.Fits :=
  fun a => inferInstanceAs <| Decidable (-2048 ≤ a.off ∧ a.off + 1 < 2048)

variable {sym : Symbols} {s s' : State} {rd rs r : Reg} {a : Addr} {W : List Reg} {V : List (Fin 8)} {M : Set Word}

theorem signExtend_ofInt {off : Int} (h : -2048 ≤ off) (h' : off < 2048) :
    (BitVec.ofInt 12 off).signExtend 32 = BitVec.ofInt 32 off := by
  rw [BitVec.signExtend, BitVec.toInt_ofInt, Int.bmod_eq_of_le (by omega) (by omega)]

theorem addr_eq_target (h : -2048 ≤ a.off) (h' : a.off < 2048) :
    s.addr (BitVec.ofInt 12 a.off) a.base = a.target s := by
  rw [State.addr, signExtend_ofInt h h', Addr.target]

theorem addr_plus_0 (h : a.Fits) : s.addr (BitVec.ofInt 12 (a.plus 0).off) (a.plus 0).base = a.target s := by
  rw [addr_eq_target (by simp [Addr.plus, h.left]) (by have := h.right; simp only [Addr.plus]; omega)]
  simp [Addr.target, Addr.plus]

theorem addr_plus_1 (h : a.Fits) : s.addr (BitVec.ofInt 12 (a.plus 1).off) (a.plus 1).base = a.target s + 1 := by
  rw [addr_eq_target (by have := h.left; simp only [Addr.plus]; omega)
    (by have := h.right; simp only [Addr.plus]; omega)]
  simp only [Addr.target, Addr.plus]
  rw [BitVec.ofInt_add, BitVec.add_comm (BitVec.ofInt 32 1), ← BitVec.add_assoc]
  rfl

theorem target_within (w : Within W V M s s') (h : a.base ∉ W) : a.target s' = a.target s := by
  rw [Addr.target, w.reg _ h, Addr.target]

-- The accessed bytes are not in the scratch area.
structure Addr.Free (a : Addr) (s : State) : Prop where
  fits   : a.Fits
  first  : a.target s ∉ scratch (s.reg sp)
  second : a.target s + 1 ∉ scratch (s.reg sp)

theorem exec_lbu {o : Addr} : s.exec (InstReplace.lbu r o) =
    (s.setReg r ((s.mem (s.addr (BitVec.ofInt 12 o.off) o.base)).setWidth 32)).next := rfl

-- The loads clear the variable A and put a loaded byte into it.
def loadByte (r : Reg) (o : Addr) (k : Fin 4) : List Instr :=
  [sw x0 (spVar varA), lbu r o, sb r (spVarByte varA k), lw r (spVar varA)]

theorem loadByte_spec {o : Addr} {x : Word} (k : Fin 4) (h : s.addr (BitVec.ofInt 12 o.off) o.base = x)
    (hx : x ∉ scratch (s.reg sp)) (h₀ : r ≠ 0) (hs : r ≠ sp) : Within [r] [varA] ∅ s (s.run (loadByte r o k)) ∧
    (s.run (loadByte r o k)).reg r = (0 : Word).setByte k (s.mem x) := by
  have hm : (s.setVar varA 0).mem x = s.mem x := mem_setVar (by decide) hx
  have ha : (s.setVar varA 0).next.addr (BitVec.ofInt 12 o.off) o.base = x := h
  simp [loadByte, exec_lbu, h₀, hs, hs.symm]
  exact congrArg _ <| (congrArg _ ha).trans hm

theorem sshiftRight_byte_3 {b : Byte} : ((0 : Word).setByte 3 b).sshiftRight 24 = b.signExtend 32 := by
  revert b
  decide

theorem run_lb (r : sym.Ready s) (f : a.Free s) (h : rd ∉ [x0, sp, gp, tp]) :
    s.Computes (lb sym rd a) [gp, tp] [1, varA, varB, varC, varD] rd ((s.mem (a.target s)).signExtend 32) := by
  have ⟨h₀, hs, ht⟩ : rd ≠ 0 ∧ rd ≠ sp ∧ rd ≠ tp := by
    simp at h
    tauto
  have := f.fits.right
  have ⟨w, hv⟩ := loadByte_spec 3 (addr_eq_target f.fits.left (by omega)) f.first h₀ hs
  have c : (s.run (loadByte rd a 3)).Computes (srai sym rd rd 24) _ _ rd _ :=
    run_shiftRight_24 (r.within w (by simpa using hs.symm)) hs ht
  have e : lb sym rd a = loadByte rd a 3 ++ srai sym rd rd 24 := rfl
  rw [e]
  refine .of_within ?_ hs fun _ => ?_
  case refine_1 =>
    rw [run_append]
    exact w.mono.trans (c.within (M := ∅) (by simp) hs).mono (by simpa using hs.symm)
  case refine_2 =>
    rw [run_append, c.reg h₀, hv, ← sshiftRight_byte_3]
    rfl

theorem add_byte_1 {b₀ b₁ : Byte} : b₀.setWidth 32 + (0 : Word).setByte 1 b₁ = (b₁ ++ b₀).setWidth 32 := by
  have h : ∀ b : Byte, (0 : Word).setByte 1 b = BitVec.ofNat 32 (b.toNat * 2 ^ 8) := by decide
  apply BitVec.eq_of_toNat_eq
  rw [h, toNat_add, toNat_ofNat, toNat_setWidth, toNat_setWidth, toNat_append,
    ← Nat.shiftLeft_add_eq_or_of_lt b₀.isLt, Nat.shiftLeft_eq]
  omega

theorem add_sshiftRight_byte_3 {b₀ b₁ : Byte} :
    b₀.setWidth 32 + ((0 : Word).setByte 3 b₁).sshiftRight 16 = (b₁ ++ b₀).signExtend 32 := by
  have h : ∀ b : Byte, ((0 : Word).setByte 3 b).sshiftRight 16 =
      BitVec.ofNat 32 (b.toNat * 2 ^ 8 + if b.msb then 2 ^ 32 - 2 ^ 16 else 0) := by decide
  have hm : (b₁ ++ b₀).msb = b₁.msb := by rw [BitVec.msb_append, if_neg (by decide)]
  apply BitVec.eq_of_toNat_eq
  rw [h, toNat_add, toNat_ofNat, toNat_signExtend, hm, toNat_setWidth, toNat_setWidth, toNat_append,
    ← Nat.shiftLeft_add_eq_or_of_lt b₀.isLt, Nat.shiftLeft_eq]
  split <;> omega

theorem run_lhu (f : a.Free s) (h : rd ∉ [x0, sp, gp, tp]) (hb : a.base ∉ [gp, tp]) :
    s.Computes (lhu rd a) [gp, tp] [varA] rd ((s.mem (a.target s + 1) ++ s.mem (a.target s)).setWidth 32) := by
  have ⟨h₀, hs, ht⟩ : rd ≠ 0 ∧ rd ≠ sp ∧ rd ≠ tp := by
    simp at h
    tauto
  have ⟨w, hv⟩ := loadByte_spec 1 (addr_plus_1 f.fits) f.second (r := tp) (by simp) (by simp)
  have ha := target_within w (fun hm => hb (List.mem_cons_of_mem _ hm))
  have hm := w.mem (a.target s) (by simp) f.first
  have e : lhu rd a = loadByte tp (a.plus 1) 1 ++ [lbu rd (a.plus 0), .add rd rd tp] := rfl
  refine .of_within ?_ hs fun _ => ?_
  all_goals
    rw [e, run_append]
    generalize s.run (loadByte tp (a.plus 1) 1) = s₁ at *
  case refine_1 =>
    have w' : Within [rd, gp, tp] [varA] ∅ s s₁ := w.mono
    simpa [exec_lbu, hs.symm] using w'
  case refine_2 => simpa [exec_lbu, addr_plus_0 f.fits, h₀, ht.symm, ha, hm, hv] using add_byte_1

theorem run_lh (r : sym.Ready s) (f : a.Free s) (h : rd ∉ [x0, sp, gp, tp]) (hb : a.base ∉ [gp, tp]) :
    s.Computes (lh sym rd a) [gp, tp] [1, varA, varB, varC, varD] rd
      ((s.mem (a.target s + 1) ++ s.mem (a.target s)).signExtend 32) := by
  have ⟨h₀, hs, hg⟩ : rd ≠ 0 ∧ rd ≠ sp ∧ rd ≠ gp := by
    simp at h
    tauto
  have ⟨w₁, h₁⟩ := loadByte_spec 3 (addr_plus_1 f.fits) f.second (r := gp) (by simp) (by simp)
  have e : lh sym rd a = loadByte gp (a.plus 1) 3 ++ srai sym gp gp 16 ++ [lbu rd (a.plus 0), .add rd rd gp] := rfl
  have c : (s.run (loadByte gp (a.plus 1) 3)).Computes (srai sym gp gp 16) _ _ gp _ :=
    run_shiftRight (r.within w₁) (by simp) (by simp [ShiftAmount.value])
  have w₂ := c.within (M := ∅) (by simp) (by simp)
  have h₂ : ((s.run (loadByte gp (a.plus 1) 3)).run (srai sym gp gp 16)).reg gp =
      ((0 : Word).setByte 3 (s.mem (a.target s + 1))).sshiftRight 16 := (c.reg (by simp)).trans (by rw [h₁]; rfl)
  have w : Within [gp, tp] [1, varA, varB, varC, varD] ∅ s
      ((s.run (loadByte gp (a.plus 1) 3)).run (srai sym gp gp 16)) := w₁.mono.trans w₂.mono
  have ha := target_within w hb
  have hm := w.mem (a.target s) (by simp) f.first
  refine .of_within ?_ hs fun _ => ?_
  all_goals
    rw [e, run_append, run_append]
    generalize (s.run (loadByte gp (a.plus 1) 3)).run (srai sym gp gp 16) = s₂ at *
  case refine_1 =>
    have w' : Within [rd, gp, tp] [1, varA, varB, varC, varD] ∅ s s₂ := w.mono
    simpa [exec_lbu, hs.symm] using w'
  case refine_2 =>
    simpa [exec_lbu, addr_plus_0 f.fits, h₀, hg.symm, ha, hm, h₂] using add_sshiftRight_byte_3

theorem exec_sb {o : Addr} : s.exec (InstReplace.sb r o) =
    (s.setMemByte (s.addr (BitVec.ofInt 12 o.off) o.base) (s.reg r)).next := rfl

theorem store_two {m : Memory 32} {x v : Word} :
    m.store x 2 v = Function.update (Function.update m x (v.byte 0)) (x + 1) (v.byte 1) := by
  funext y
  rw [Memory.store_apply, Function.update_apply, Function.update_apply]
  by_cases h₁ : y = x + 1
  case pos =>
    have hd : (x + 1 - x).toNat = 1 := by bv_omega
    rw [if_pos h₁, h₁, hd]
    rfl
  case neg =>
    rw [if_neg h₁]
    by_cases h₀ : y = x
    case pos => rw [if_pos h₀, h₀, BitVec.sub_self]; rfl
    case neg => rw [if_neg h₀, if_neg (by bv_omega)]

-- The two bytes are stored one after the other, the second one by way of the variable C.
theorem run_sh (f : a.Free s) (hb : a.base ∉ [gp, tp]) :
    (∀ r ∉ [gp, tp], (s.run (sh rs a)).reg r = s.reg r) ∧
    ∀ x ∉ scratch (s.reg sp), (s.run (sh rs a)).mem x = s.mem.store (a.target s) 2 (s.reg rs) x := by
  have hb' : a.base ≠ tp := fun he => hb (by simp [he])
  have e : sh rs a = [sb rs (a.plus 0)] ++ getbyte tp rs 1 ++ [sb tp (a.plus 1)] := rfl
  rw [e, run_append, run_append, run_getbyte]
  simp only [run_cons, run_nil, exec_sb, addr_plus_0 f.fits, addr_plus_1 f.fits]
  constructor
  case left =>
    intro r hr
    have : r ≠ tp := fun he => hr (by simp [he])
    simp [this]
  case right =>
    intro x hx
    have hx' : x ∉ scratch ((s.setMemByte (a.target s) (s.reg rs)).next.reg sp) := hx
    have hm : ((s.setMemByte (a.target s) (s.reg rs)).next.setVar varC (s.reg rs)).mem x =
        Function.update s.mem (a.target s) ((s.reg rs).byte 0) x := by
      rw [mem_setVar (n := varC) (by decide) hx', mem_next, mem_setMemByte]
    rw [store_two]
    by_cases h₁ : x = a.target s + 1
    case pos => simp_all [Addr.target]
    case neg => simp_all [Addr.target]

section Correct

variable {rd rs : Reg} {a : Addr}

theorem straight_lb : Straight (lb sym rd a) := by
  simp [lb, srai, straight_shiftRight]

theorem straight_lhu : Straight (lhu rd a) := by
  simp [lhu]

theorem straight_lh : Straight (lh sym rd a) := by
  simp [lh, srai, straight_shiftRight]

-- The expansions load and store the bytes at the address that the base register gave before.
theorem subword_implements (r : sym.Ready s) (hd : rd ∉ [x0, sp, gp, tp]) (hb : a.base ∉ [gp, tp]) (f : a.Free s) :
    s.Implements (lb sym rd a) rd ((s.mem (a.target s)).signExtend 32) ∧
    s.Implements (lhu rd a) rd ((s.mem (a.target s + 1) ++ s.mem (a.target s)).setWidth 32) ∧
    s.Implements (lh sym rd a) rd ((s.mem (a.target s + 1) ++ s.mem (a.target s)).signExtend 32) ∧
    s.Simulates (sh rs a) (scratch (s.reg sp))
      ((s.setMem (s.mem.store (a.target s) 2 (s.reg rs))).jump (s.pc + BitVec.ofNat 32 (4 * (sh rs a).length))) := by
  refine ⟨?lb, ?lhu, ?lh, ?sh⟩
  case lb  => exact (run_lb r f hd).implements straight_lb
  case lhu => exact (run_lhu f hd hb).implements straight_lhu
  case lh  => exact (run_lh r f hd hb).implements straight_lh
  case sh =>
    intro fetch hc
    have hs : Straight (sh rs a) := straight_sh
    have h : _ ∧ ∀ x ∉ _, (s.run (sh rs a)).mem x = _ := run_sh f hb
    exact ⟨_, steps_eq_run hc fun i h => hs i (List.mem_of_mem_dropLast h), run_pc hs, h.left, h.right⟩

-- The operand `-1(a0)`: its first byte is at address 9.
theorem subword_implements_loaded :
    let sym := Symbols.at 0x80100000
    let s := loaded 0x80100000 0x80200000
    let a : Addr := ⟨-1, 10⟩
    s.Implements (lb sym 10 a) 10 ((s.mem (a.target s)).signExtend 32) ∧
    s.Implements (lhu 10 a) 10 ((s.mem (a.target s + 1) ++ s.mem (a.target s)).setWidth 32) ∧
    s.Implements (lh sym 10 a) 10 ((s.mem (a.target s + 1) ++ s.mem (a.target s)).signExtend 32) ∧
    s.Simulates (sh 10 a) (scratch (s.reg sp))
      ((s.setMem (s.mem.store (a.target s) 2 (s.reg 10))).jump (s.pc + BitVec.ofNat 32 (4 * (sh 10 a).length))) :=
  subword_implements (ready_loaded (by decide)) (by decide) (by decide) {
    fits   := by decide
    first  := by
      rw [scratch, Memory.mem_region]
      decide
    second := by
      rw [scratch, Memory.mem_region]
      decide
  }

end Correct

end InstReplace
