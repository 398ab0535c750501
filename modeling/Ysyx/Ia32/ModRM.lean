import Ysyx.Bytes.LittleEndian

-- The 32-bit addressing forms of IA-32, by the tables of their ModR/M and SIB bytes.

namespace Ia32

abbrev Reg := BitVec 3

-- A base or an index may be absent.
inductive Operand
  | reg (r : Reg)
  | mem (base index : Option Reg) (ss : BitVec 2) (disp : Word)

def modrm (mod : BitVec 2) (reg rm : Reg) : Byte :=
  mod ++ reg ++ rm

def sib (ss : BitVec 2) (index base : Reg) : Byte :=
  ss ++ index ++ base

-- Index 4 stands for no index.
def index? (i : Reg) : Option Reg :=
  if i = 4 then none else some i

def disp32 (d : Word) : List Byte :=
  [d.byte 0, d.byte 1, d.byte 2, d.byte 3]

-- The bytes of an operand. `reg` is the other field of the ModR/M byte.
inductive Encodes : List Byte → Reg → Operand → Prop
  | reg {reg r : Reg} : Encodes [modrm 3 reg r] reg (.reg r)
  | base {reg r : Reg} : r ≠ 4 → r ≠ 5 → Encodes [modrm 0 reg r] reg (.mem (some r) none 0 0)
  | disp {reg : Reg} {d : Word} : Encodes (modrm 0 reg 5 :: disp32 d) reg (.mem none none 0 d)
  | base8 {reg r : Reg} {d : Byte} : r ≠ 4 → Encodes [modrm 1 reg r, d] reg (.mem (some r) none 0 (d.signExtend 32))
  | base32 {reg r : Reg} {d : Word} : r ≠ 4 → Encodes (modrm 2 reg r :: disp32 d) reg (.mem (some r) none 0 d)
  | sib {reg i b : Reg} {ss : BitVec 2} : b ≠ 5 →
    Encodes [modrm 0 reg 4, sib ss i b] reg (.mem (some b) (index? i) ss 0)
  | sibDisp {reg i : Reg} {ss : BitVec 2} {d : Word} :
    Encodes (modrm 0 reg 4 :: sib ss i 5 :: disp32 d) reg (.mem none (index? i) ss d)
  | sib8 {reg i b : Reg} {ss : BitVec 2} {d : Byte} :
    Encodes [modrm 1 reg 4, sib ss i b, d] reg (.mem (some b) (index? i) ss (d.signExtend 32))
  | sib32 {reg i b : Reg} {ss : BitVec 2} {d : Word} :
    Encodes (modrm 2 reg 4 :: sib ss i b :: disp32 d) reg (.mem (some b) (index? i) ss d)

-- The effective address, modulo 2^32.
def address (regs : Reg → Word) (base index : Option Reg) (ss : BitVec 2) (disp : Word) : Word :=
  base.elim 0 regs + index.elim 0 regs * 2 ^ ss.toNat + disp

section

variable {f : Nat → Byte} {m : BitVec 2} {b : Byte}

theorem modrm_fields (b : Byte) : b = modrm (b.extractLsb' 6 2) (b.extractLsb' 3 3) (b.extractLsb' 0 3) := by
  rw [modrm]
  ext k hk
  simp
  grind

theorem sib_fields (b : Byte) : b = sib (b.extractLsb' 6 2) (b.extractLsb' 3 3) (b.extractLsb' 0 3) :=
  modrm_fields b

-- The bytes `bs` are the first ones of `f`.
def Begins (bs : List Byte) (f : Nat → Byte) : Prop :=
  ∀ i b, bs[i]? = some b → f i = b

theorem begins_cons {bs : List Byte} : Begins (b :: bs) f ↔ f 0 = b ∧ Begins bs (f <| · + 1) := by
  refine ⟨fun h => ⟨h 0 b rfl, fun i b hb => h (i + 1) b hb⟩, fun ⟨h₀, h⟩ i b hb => ?_⟩
  cases i
  case zero => cases hb; exact h₀
  case succ i => exact h i b hb

theorem begins_nil : Begins [] f :=
  nofun

theorem begins_disp32 : Begins (disp32 (BitVec.ofBytes f)) f := by
  refine begins_cons.mpr ⟨?_, begins_cons.mpr ⟨?_, begins_cons.mpr ⟨?_, begins_cons.mpr ⟨?_, begins_nil⟩⟩⟩⟩
  all_goals exact (BitVec.byte_ofBytes (by decide)).symm

theorem begins_byte {bs : List Byte} (h : f 0 = b) (hs : Begins bs (f <| · + 1)) : Begins (b :: bs) f :=
  begins_cons.mpr ⟨h, hs⟩

theorem mod_cases : ∀ m : BitVec 2, m = 0 ∨ m = 1 ∨ m = 2 ∨ m = 3 := by
  decide

-- The forms with a SIB byte.
theorem exists_encodes_sib {reg i c : Reg} {ss : BitVec 2} (hm : m ≠ 3) (h₀ : f 0 = modrm m reg 4)
    (h₁ : f 1 = sib ss i c) : ∃ bs reg op, Encodes bs reg op ∧ Begins bs f := by
  obtain rfl | rfl | rfl | rfl := mod_cases m
  case inl =>
    by_cases hc : c = 5
    case pos => subst hc; exact ⟨_, _, _, .sibDisp, begins_byte h₀ <| begins_byte h₁ begins_disp32⟩
    case neg => exact ⟨_, _, _, .sib hc, begins_byte h₀ <| begins_byte h₁ begins_nil⟩
  case inr.inl => exact ⟨_, _, _, .sib8, begins_byte h₀ <| begins_byte h₁ <| begins_byte rfl begins_nil⟩
  case inr.inr.inl => exact ⟨_, _, _, .sib32, begins_byte h₀ <| begins_byte h₁ begins_disp32⟩
  case inr.inr.inr => exact absurd rfl hm

-- Any bytes begin with those of an operand.
theorem exists_encodes (f : Nat → Byte) : ∃ bs reg op, Encodes bs reg op ∧ Begins bs f := by
  have h₀ := modrm_fields (f 0)
  have h₁ := sib_fields (f 1)
  generalize (f 0).extractLsb' 6 2 = m, (f 0).extractLsb' 3 3 = reg, (f 0).extractLsb' 0 3 = r at h₀
  by_cases hm : m = 3
  case pos => subst hm; exact ⟨_, _, _, .reg, begins_byte h₀ begins_nil⟩
  by_cases hr : r = 4
  case pos => subst hr; exact exists_encodes_sib hm h₀ h₁
  obtain rfl | rfl | rfl | rfl := mod_cases m
  case inl =>
    by_cases hd : r = 5
    case pos => subst hd; exact ⟨_, _, _, .disp, begins_byte h₀ begins_disp32⟩
    case neg => exact ⟨_, _, _, .base hr hd, begins_byte h₀ begins_nil⟩
  case inr.inl => exact ⟨_, _, _, .base8 hr, begins_byte h₀ <| begins_byte rfl begins_nil⟩
  case inr.inr.inl => exact ⟨_, _, _, .base32 hr, begins_byte h₀ begins_disp32⟩
  case inr.inr.inr => exact absurd rfl hm

end
end Ia32
