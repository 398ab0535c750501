import Ysyx.Ia32.ModRM
import Ysyx.Monads.EState
import Ysyx.Nemu.Theorems.Guest
import Ysyx.Nemu.X86.Inst

-- ModR/M operands are decoded as IA-32 prescribes.

namespace Nemu.X86

open EState (bind_of_ok)
open Nemu.X86.System (displacement)

variable {D : Type} {sys : System D} {m : Machine D} {s s' : Decode} {bs : List Byte} {b : Byte} {d : Word}
variable {reg r i : Ia32.Reg} {md ss : BitVec 2} {n k : Nat}

section Fetch

-- The bytes `bs` come next, and there is room to record them.
structure Next (sys : System D) (m : Machine D) (s : Decode) (bs : List Byte) : Prop where
  holds : (sys.guest m.host).Holds s.snpc bs
  pmem  : ∀ i < bs.length, sys.InPmem (s.snpc.toNat + i)
  trace : sys.ITRACE = true → (s.snpc - s.pc).toNat + bs.length < 16

-- `n` bytes have been consumed.
structure Consumed (s : Decode) (n : Nat) (s' : Decode) : Prop where
  pc   : s'.pc = s.pc
  snpc : s'.snpc = s.snpc + BitVec.ofNat 32 n
  dnpc : s'.dnpc = s.dnpc

theorem Consumed.refl : Consumed s 0 s :=
  ⟨rfl, (BitVec.add_zero _).symm, rfl⟩

theorem Consumed.trans {s'' : Decode} (h : Consumed s n s') (h' : Consumed s' k s'') : Consumed s (n + k) s'' where
  pc   := h'.pc.trans h.pc
  snpc := by rw [h'.snpc, h.snpc, BitVec.add_assoc, BitVec.ofNat_add]
  dnpc := h'.dnpc.trans h.dnpc

-- A fetch that is not too long for the record.
theorem fetch_run (hr : sys.paddr_read s.snpc n m.toState = .ok d m.toState)
    (ht : sys.ITRACE = true → (s.snpc - s.pc).toNat + n < 16) :
    ∃ s', sys.x86_inst_fetch s n m = .ok (d, s') m ∧ Consumed s n s' := by
  have ha : (access (sys.paddr_read s.snpc n) : Exec D Word) m = .ok d m := by rw [access, hr]
  have hf : sys.inst_fetch s.snpc n m = .ok (d, s.snpc + BitVec.ofNat 32 n) m := by
    rw [System.inst_fetch, bind_of_ok ha]
    rfl
  rw [System.x86_inst_fetch, bind_of_ok hf]
  cases hi : sys.ITRACE
  case false => exact ⟨_, rfl, rfl, rfl, rfl⟩
  case true =>
    have hn : (s.snpc + BitVec.ofNat 32 n - s.pc).toNat < 16 := by
      have ht := ht hi
      simp only [BitVec.toNat_sub, BitVec.toNat_add, BitVec.toNat_ofNat] at ht ⊢
      omega
    refine ⟨{ s with
      snpc := s.snpc + BitVec.ofNat 32 n
      inst := System.record s.inst (s.snpc - s.pc).toNat n d }, ?_, rfl, rfl, rfl⟩
    simp only [hn, not_true, if_false, if_true]
    rfl

theorem Next.tail (h : Next sys m s (b :: bs)) (hc : Consumed s 1 s') : Next sys m s' bs where
  holds := by
    have hb : (sys.guest m.host).Holds s.snpc ([b] ++ bs) := h.holds
    exact hb.right hc.snpc.symm
  pmem i hi := by
    have hf := sys.fits
    have hs := sys.pos
    have hp := h.pmem (i + 1) (Nat.succ_lt_succ hi)
    have hn : s'.snpc.toNat = s.snpc.toNat + 1 := by
      have ⟨_, h₂⟩ := hp
      rw [hc.snpc, BitVec.toNat_add, BitVec.toNat_ofNat]
      omega
    rwa [hn, Nat.add_assoc, Nat.add_comm 1]
  trace hi := by
    have ht := h.trace hi
    rw [hc.snpc, hc.pc]
    simp only [List.length_cons, BitVec.toNat_sub, BitVec.toNat_add, BitVec.toNat_ofNat] at ht ⊢
    omega

-- The next byte.
theorem Next.byte (h : Next sys m s (b :: bs)) :
    ∃ s', sys.x86_inst_fetch s 1 m = .ok (b.setWidth 32, s') m ∧ Consumed s 1 s' ∧ Next sys m s' bs := by
  have hb : sys.guest m.host s.snpc = b := by simpa using h.holds 0 b rfl
  have hr : sys.paddr_read s.snpc 1 m.toState = _ := Env.paddr_read_byte (h.pmem 0 (Nat.succ_pos _)).in_pmem
  rw [hb] at hr
  have ⟨s', hf, hc⟩ := fetch_run hr fun ht => Nat.lt_of_le_of_lt (by simp) (h.trace ht)
  exact ⟨s', hf, hc, h.tail hc⟩

-- The next four bytes.
theorem Next.word (h : Next sys m s (Ia32.disp32 d)) :
    ∃ s', sys.x86_inst_fetch s 4 m = .ok (d, s') m ∧ Consumed s 4 s' := by
  have hl : (sys.guest m.host).load32 s.snpc = d := by
    refine (BitVec.eq_ofBytes fun i hi => ?_).symm
    refine (h.holds i _ ?_).symm
    match i, hi with
    | 0, _ | 1, _ | 2, _ | 3, _ => rfl
  have hr : sys.paddr_read s.snpc 4 m.toState = _ := Env.paddr_read_load32 h.pmem
  rw [hl] at hr
  exact fetch_run hr h.trace

end Fetch

section Fields

@[simp] theorem R_M_modrm : ModR_M.R_M (Ia32.modrm md reg r) = r.toNat := by
  rw [ModR_M.R_M, Ia32.modrm]
  congr 2
  ext k hk
  simp
  grind

@[simp] theorem reg_modrm : ModR_M.reg (Ia32.modrm md reg r) = reg.toNat := by
  rw [ModR_M.reg, Ia32.modrm]
  congr 2
  ext k hk
  simp
  grind

@[simp] theorem mod_modrm : ModR_M.mod (Ia32.modrm md reg r) = md.toNat := by
  rw [ModR_M.mod, Ia32.modrm]
  congr 2
  ext k hk
  simp
  grind

theorem mod_modrm_ne (h : md ≠ 3) : ModR_M.mod (Ia32.modrm md reg r) ≠ 3 := by
  rw [mod_modrm]
  revert md
  decide

@[simp] theorem base_sib : SIB.base (Ia32.sib ss i r) = r.toNat :=
  R_M_modrm

@[simp] theorem index_sib : SIB.index (Ia32.sib ss i r) = i.toNat :=
  reg_modrm

@[simp] theorem ss_sib : SIB.ss (Ia32.sib ss i r) = ss.toNat :=
  Int.ofNat.inj mod_modrm

end Fields

section Address

-- How a register that may be absent is kept in a variable.
def code (o : Option Ia32.Reg) : Int :=
  o.elim (-1) (·.toNat)

def regs (cpu : CPU_state) (r : Ia32.Reg) : Word :=
  (cpu.gpr r.toFin)._32

variable {base index : Option Ia32.Reg} {c : Ia32.Reg} {disp : Word} {size scale : Nat} {s₁ s₂ : Decode}

theorem code_index : (if SIB.index (Ia32.sib ss i r) ≠ R_ESP then SIB.index (Ia32.sib ss i r) else -1) =
    code (Ia32.index? i) := by
  rw [index_sib, Ia32.index?]
  revert i
  decide

theorem reg_l_toNat {cfg : Config} {cpu : CPU_state} : cpu.reg_l cfg r.toNat = some (regs cpu r) := by
  have hr : check_reg_index cfg r.toNat = some r.toFin := by
    rw [check_reg_index, if_neg (by omega)]
    refine congrArg some <| Fin.ext ?_
    exact Nat.mod_eq_of_lt r.isLt
  rw [CPU_state.reg_l, hr]
  rfl

theorem addend_run : sys.addend (code base) scale m = .ok (base.elim 0 (regs m.cpu) <<< scale) m := by
  cases base
  case none => simp [System.addend, code]; rfl
  case some r =>
    have hr : code (some r) ≠ -1 := by rw [code, Option.elim_some]; omega
    have hv : value (·.reg_l sys.toConfig (code (some r))) m = .ok (regs m.cpu r) m := by
      rw [value, EState.get_bind, code, Option.elim_some, reg_l_toNat]
      rfl
    rw [System.addend, if_pos hr, bind_of_ok hv]
    rfl

-- A SIB byte follows if the field is 4.

theorem load_regs_sib (h : Next sys m s (Ia32.sib ss i c :: bs)) :
    ∃ s', sys.load_regs s (Ia32.modrm md reg 4) m =
      .ok ({ base_reg := code (some c), index_reg := code (Ia32.index? i), scale := ss.toNat }, s') m ∧
    Consumed s 1 s' ∧ Next sys m s' bs := by
  have ⟨s', hf, hc, hn⟩ := h.byte
  refine ⟨s', ?_, hc, hn⟩
  rw [System.load_regs, if_pos (by rw [R_M_modrm]; rfl), bind_of_ok hf]
  have hi : code (Ia32.index? i) = if SIB.index (Ia32.sib ss i c) ≠ R_ESP then _ else _ := code_index.symm
  rw [hi]
  simp [code]
  rfl

theorem load_regs_modrm (h : r ≠ 4) : sys.load_regs s (Ia32.modrm md reg r) m =
    .ok ({ base_reg := code (some r), index_reg := code none, scale := (0 : BitVec 2).toNat }, s) m := by
  have hr : ModR_M.R_M (Ia32.modrm md reg r) ≠ R_ESP := by
    rw [R_M_modrm]
    revert r
    decide
  rw [System.load_regs, if_neg hr, R_M_modrm]
  rfl

-- The displacement of each form.

theorem displacement_base (h : c ≠ 5) : displacement (Ia32.modrm 0 reg r) (code (some c)) = (code (some c), 0) := by
  rw [displacement, mod_modrm]
  revert c
  decide

theorem displacement_none : displacement (Ia32.modrm 0 reg r) (code (some 5)) = (code none, 4) := by
  rw [displacement, mod_modrm]
  decide

theorem displacement_byte : displacement (Ia32.modrm 1 reg r) (code (some c)) = (code (some c), 1) := by
  rw [displacement, mod_modrm]
  revert c
  decide

theorem displacement_word : displacement (Ia32.modrm 2 reg r) (code (some c)) = (code (some c), 4) := by
  rw [displacement, mod_modrm]
  revert c
  decide

theorem load_disp_byte (h : Next sys m s [b]) :
    ∃ s', sys.load_disp s 1 m = .ok (b.signExtend 32, s') m ∧ Consumed s 1 s' := by
  have ⟨s', hf, hc, _⟩ := h.byte
  refine ⟨s', ?_, hc⟩
  rw [System.load_disp, if_pos (by decide), bind_of_ok hf]
  simp
  rfl

theorem load_disp_word (h : Next sys m s (Ia32.disp32 d)) :
    ∃ s', sys.load_disp s 4 m = .ok (d, s') m ∧ Consumed s 4 s' := by
  have ⟨s', hf, hc⟩ := h.word
  refine ⟨s', ?_, hc⟩
  rw [System.load_disp, if_pos (by decide), bind_of_ok hf]
  rfl

theorem shiftLeft_eq (v : Word) : v <<< ss.toNat = v * 2 ^ ss.toNat := by
  obtain rfl | rfl | rfl | rfl := Ia32.mod_cases ss
  all_goals exact BitVec.shiftLeft_eq_mul_twoPow ..

theorem load_addr_run (hm : md ≠ 3)
    (hr : sys.load_regs s (Ia32.modrm md reg r) m =
      .ok ({ base_reg := code (some c), index_reg := code index, scale := ss.toNat }, s₁) m)
    (hd : displacement (Ia32.modrm md reg r) (code (some c)) = (code base, size))
    (hl : sys.load_disp s₁ size m = .ok (disp, s₂) m) :
    sys.load_addr s (Ia32.modrm md reg r) m = .ok (Ia32.address (regs m.cpu) base index ss disp, s₂) m := by
  have ha : disp + base.elim 0 (regs m.cpu) <<< 0 + index.elim 0 (regs m.cpu) <<< ss.toNat =
      Ia32.address (regs m.cpu) base index ss disp := by
    rw [Ia32.address, shiftLeft_eq, BitVec.shiftLeft_zero]
    cases index
    case none => simp [BitVec.add_comm]
    case some i =>
      rw [Option.elim_some, BitVec.add_comm disp, BitVec.add_assoc, BitVec.add_assoc, BitVec.add_comm disp]
  rw [System.load_addr, if_neg <| not_not.mpr <| mod_modrm_ne hm]
  refine (bind_of_ok hr).trans ?_
  simp only [hd]
  rw [bind_of_ok hl, bind_of_ok addend_run, bind_of_ok addend_run, ha]
  rfl

end Address

section Operands

variable {op : Ia32.Operand} {base index : Option Ia32.Reg} {c : Ia32.Reg} {disp : Word} {size : Nat}

def Operand.Denotes (o : System.Operand) (cpu : CPU_state) (rm_addr : Word) : Ia32.Operand → Prop
  | .reg r               => o.rm_reg = r.toNat ∧ o.rm_addr = rm_addr
  | .mem base index ss d => o.rm_reg = -1 ∧ o.rm_addr = Ia32.address (regs cpu) base index ss d

-- The operand `op` of length `n` is found, along with the other field of the ModR/M byte.
def Decodes (sys : System D) (m : Machine D) (s : Decode) (n : Nat) (reg : Ia32.Reg) (op : Ia32.Operand) : Prop :=
  ∀ rm_addr, ∃ o s', sys.decode_rm s rm_addr m = .ok (o, s') m ∧ Consumed s n s' ∧ o.reg = reg.toNat ∧
    Operand.Denotes o m.cpu rm_addr op

theorem decodes_reg (h : Next sys m s [Ia32.modrm 3 reg r]) : Decodes sys m s 1 reg (.reg r) := by
  intro rm_addr
  have ⟨s', hf, hc, _⟩ := h.byte
  refine ⟨{ rm_reg := r.toNat, rm_addr, reg := reg.toNat }, s', ?_, hc, rfl, rfl, rfl⟩
  rw [System.decode_rm, bind_of_ok hf]
  simp
  rfl

-- An operand in memory whose address is formed by the bytes after the ModR/M byte.
theorem decodes_mem (hm : md ≠ 3) (h : Next sys m s (Ia32.modrm md reg r :: bs))
    (ha : ∀ s₁, Next sys m s₁ bs → ∃ s₂, Consumed s₁ bs.length s₂ ∧
      sys.load_addr s₁ (Ia32.modrm md reg r) m = .ok (Ia32.address (regs m.cpu) base index ss disp, s₂) m) :
    Decodes sys m s (bs.length + 1) reg (.mem base index ss disp) := by
  intro rm_addr
  have ⟨s₁, hf, hc, hn⟩ := h.byte
  have ⟨s₂, hc', hl⟩ := ha s₁ hn
  refine ⟨{ rm_reg := -1, rm_addr := _, reg := reg.toNat }, s₂, ?_, ?_, rfl, rfl, rfl⟩
  case refine_1 =>
    rw [System.decode_rm, bind_of_ok hf]
    have hv : ((Ia32.modrm md reg r).setWidth 32).setWidth 8 = Ia32.modrm md reg r := by simp
    dsimp only
    rw [hv, if_neg (mod_modrm_ne hm), reg_modrm]
    exact bind_of_ok hl
  case refine_2 =>
    rw [Nat.add_comm]
    exact hc.trans hc'

-- Each addressing form without a SIB byte, and each one with it.

theorem decodes_modrm {bs : List Byte} (hm : md ≠ 3) (hr : r ≠ 4) (h : Next sys m s (Ia32.modrm md reg r :: bs))
    (hd : displacement (Ia32.modrm md reg r) (code (some r)) = (code base, size))
    (hl : ∀ s₁, Next sys m s₁ bs → ∃ s₂, sys.load_disp s₁ size m = .ok (disp, s₂) m ∧ Consumed s₁ bs.length s₂) :
    Decodes sys m s (bs.length + 1) reg (.mem base none 0 disp) := by
  refine decodes_mem hm h fun s₁ hn => ?_
  have ⟨s₂, hl, hc⟩ := hl s₁ hn
  exact ⟨s₂, hc, load_addr_run hm (load_regs_modrm hr) hd hl⟩

theorem decodes_sib {bs : List Byte} (hm : md ≠ 3) (h : Next sys m s (Ia32.modrm md reg 4 :: Ia32.sib ss i c :: bs))
    (hd : displacement (Ia32.modrm md reg 4) (code (some c)) = (code base, size))
    (hl : ∀ s₁, Next sys m s₁ bs → ∃ s₂, sys.load_disp s₁ size m = .ok (disp, s₂) m ∧ Consumed s₁ bs.length s₂) :
    Decodes sys m s (bs.length + 2) reg (.mem base (Ia32.index? i) ss disp) := by
  refine decodes_mem hm h fun s₁ hn => ?_
  have ⟨s₂, hr, hc, hn⟩ : ∃ s₂, sys.load_regs s₁ (Ia32.modrm md reg 4) m = _ ∧ _ := load_regs_sib hn
  have ⟨s₃, hl, hc'⟩ := hl s₂ hn
  refine ⟨s₃, ?_, load_addr_run hm hr hd hl⟩
  rw [List.length_cons, Nat.add_comm]
  exact hc.trans hc'

theorem decodes_of_encodes (he : Ia32.Encodes bs reg op) (h : Next sys m s bs) :
    Decodes sys m s bs.length reg op := by
  cases he
  case reg => exact decodes_reg h
  case base h₄ h₅ => exact decodes_modrm (by decide) h₄ h (displacement_base h₅) fun _ _ => ⟨_, rfl, .refl⟩
  case disp => exact decodes_modrm (by decide) (by decide) h displacement_none fun _ => load_disp_word
  case base8 h₄ => exact decodes_modrm (by decide) h₄ h displacement_byte fun _ => load_disp_byte
  case base32 h₄ => exact decodes_modrm (by decide) h₄ h displacement_word fun _ => load_disp_word
  case sib h₅ => exact decodes_sib (by decide) h (displacement_base h₅) fun _ _ => ⟨_, rfl, .refl⟩
  case sibDisp => exact decodes_sib (by decide) h displacement_none fun _ => load_disp_word
  case sib8 => exact decodes_sib (by decide) h displacement_byte fun _ => load_disp_byte
  case sib32 => exact decodes_sib (by decide) h displacement_word fun _ => load_disp_word

-- The bytes in memory encode an operand, and the operand that they encode is the one that is found.
theorem operand_decoded (sys : System D) (m : Machine D) (s : Decode) :
    (∃ bs reg op, Ia32.Encodes bs reg op ∧ (sys.guest m.host).Holds s.snpc bs) ∧
    ∀ bs reg op, Ia32.Encodes bs reg op → Next sys m s bs → Decodes sys m s bs.length reg op :=
  ⟨Ia32.exists_encodes _, fun _ _ _ => decodes_of_encodes⟩

-- `movw $0x1,-0x2000(%ecx,%ebx,4)` of the built-in image.

def x86 : System Unit where
  toEnv  := { riscv32 with MBASE := 0, pos := Config.pos_default, fits := by decide }
  ITRACE := true

def movwBytes : List Byte :=
  [0x84, 0x99, 0x00, 0xe0, 0xff, 0xff]

def movwMachine : Machine Unit where
  toState := { riscv32Start with host := fun a => movwBytes.getD (a.toNat - 0x100019) 0 }
  cpu     := (CPU_state.zero.setGpr 1 ⟨0x100027, 0, fun _ => 0⟩).setGpr 3 ⟨2, 0, fun _ => 0⟩

def movw : Decode :=
  ⟨0x100017, 0x100019, 0, fun _ => 0⟩

theorem operand_decoded_movw : ∃ o s', x86.decode_rm movw 0 movwMachine = .ok (o, s') movwMachine ∧
    s'.snpc = 0x10001f ∧ o.rm_reg = -1 ∧ o.rm_addr = 0x0fe02f ∧ o.reg = 0 := by
  have hb : movwBytes = Ia32.modrm 2 0 4 :: Ia32.sib 2 3 1 :: Ia32.disp32 0xffffe000 := by decide
  have he : Ia32.Encodes movwBytes 0 (.mem (some 1) (some 3) 2 0xffffe000) := hb ▸ .sib32
  have hn : Next x86 movwMachine movw movwBytes := by
    refine ⟨?_, ?_, fun _ => by decide⟩
    case refine_1 =>
      intro i b hb
      have hi : i < 6 := (List.getElem?_eq_some_iff.mp hb).fst
      revert b
      decide +revert
    case refine_2 =>
      intro i hi
      have hp : x86.MBASE = 0 ∧ x86.MSIZE = 0x8000000 := ⟨rfl, rfl⟩
      have hs : movw.snpc.toNat = 0x100019 := by decide
      have hi : i < 6 := hi
      simp only [Env.InPmem, hp, hs]
      omega
  obtain ⟨o, s', hd, hc, hr, ha⟩ := (operand_decoded x86 movwMachine movw).right _ _ _ he hn 0
  exact ⟨o, s', hd, hc.snpc, ha.left, ha.right, hr⟩

end Operands

end Nemu.X86
