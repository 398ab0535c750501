import Mathlib.Data.BitVec
import Ysyx.Nemu.Theorems.Final
import Ysyx.Nemu.Theorems.Guest
import Ysyx.Nemu.Theorems.Inst
import Ysyx.Rv32.Start

-- The implemented instructions have their RISC-V meaning, and register 0 stays 0.

namespace Nemu.Riscv32

variable {D R α : Type} {sys : System D R} {m m' m₀ : Machine D R} {s : Decode} {addr : Word}
variable {rd rs1 rs2 : Rv32.Reg} {imm : BitVec 12} {c : Control} {l : Label} {ls : List Label}
variable {p p' : Control × Machine D R}

open EState (Keeps bind_of_ok bind_ok_iff get_bind ite_run)

section Zero

variable {pc npc : Word} {k : Byte} {d : Bool} {event : Event} {events : List Event}

-- An instruction ends with the reset of register 0.
theorem gpr_zero_of_exec_once (h : sys.exec_once pc m = .ok () m') : m'.gpr 0 = 0 := by
  have ⟨_, _, _, h⟩ := bind_ok_iff.mp h
  have ⟨_, _, hd, h⟩ := bind_ok_iff.mp h
  have ⟨_, m₁, _, hd⟩ := bind_ok_iff.mp hd
  have ⟨_, _, hg, hd⟩ := bind_ok_iff.mp hd
  cases hg
  cases hd
  cases h
  exact Function.update_self 0 0 m₁.gpr

-- Between two instructions the registers stay.

theorem gpr_of_trace (h : sys.trace_and_difftest pc npc m = .ok () m') : m'.gpr = m.gpr := by
  rw [System.trace_and_difftest] at h
  split at h
  case isFalse => cases h; rfl
  simp only [System.difftest_step, get_bind] at h
  split at h
  case isTrue =>
    split at h
    case isTrue => cases h; rfl
    case isFalse =>
      obtain ⟨_, m₁, hs, hc⟩ := bind_ok_iff.mp h
      cases hs
      split at hc
      case isTrue => cases hc
      case isFalse => cases hc; rfl
  split at h
  case isTrue => cases h; rfl
  case isFalse => cases h; rfl

theorem gpr_of_send_key (h : sys.send_key k d m = .ok () m') : m'.gpr = m.gpr := by
  rw [System.send_key, get_bind] at h
  split at h
  case isTrue =>
    cases hk : sys.key_enqueue (sys.keymap k ||| if d then System.KEYDOWN_MASK else 0) m.toState
    case ok => simp only [hk] at h; cases h; rfl
    case error => simp only [hk] at h; cases h
  case isFalse => cases h; rfl

theorem gpr_of_handle (h : sys.handle event m = .ok () m') : m'.gpr = m.gpr := by
  cases event
  case quit => cases h; rfl
  case key k d =>
    rw [System.handle] at h
    split at h
    case isTrue => exact gpr_of_send_key h
    case isFalse => cases h; rfl
  case other => cases h; rfl

theorem gpr_of_forM (h : events.forM sys.handle m = .ok () m') : m'.gpr = m.gpr := by
  induction events generalizing m
  case nil => cases h; rfl
  case cons event events hi =>
    have ⟨_, m₁, he, h⟩ := bind_ok_iff.mp h
    rw [hi h, gpr_of_handle he]

theorem gpr_of_poll (h : sys.poll m = .ok () m') : m'.gpr = m.gpr := by
  rw [System.poll] at h
  split at h
  case isTrue =>
    rw [System.device_update, get_bind] at h
    obtain ⟨_, m₁, hs, h⟩ := bind_ok_iff.mp h
    cases hs
    exact gpr_of_forM (m := { m with events := m.events.tail }) h
  case isFalse => cases h; rfl

theorem gpr_of_settle (h : settle m = .ok () m') : m'.gpr = m.gpr := by
  rw [settle, get_bind] at h
  split at h
  case isTrue => cases h; rfl
  case isFalse => cases h; rfl

theorem gpr_zero_of_step (h : p.snd.gpr 0 = 0) (hs : Step sys p l p') : p'.snd.gpr 0 = 0 := by
  cases hs
  case refuse => exact h
  case start => exact h
  case instr he =>
    have hz := gpr_zero_of_exec_once he
    exact hz
  case compare ht => exact gpr_of_trace ht ▸ h
  case leave => exact h
  case poll hp => exact gpr_of_poll hp ▸ h
  case settle hm => exact gpr_of_settle hm ▸ h
  case quit hm => cases hm; exact h

theorem gpr_zero_of_run (h : p.snd.gpr 0 = 0) (hr : Run sys p ls p') : p'.snd.gpr 0 = 0 := by
  induction hr
  case nil => exact h
  case snoc hs hi => exact gpr_zero_of_step hi hs

end Zero

section Fields

variable (f7 : BitVec 7) (r2 r1 r : BitVec 5) (f3 : BitVec 3) (op : BitVec 7) (imm : BitVec 12)

theorem rd_append (h : BitVec 20) : Nemu.rd (h ++ r ++ op) = r := by
  rw [Nemu.rd]
  ext k hk
  simp
  grind

theorem rs1_append (h : BitVec 12) : Nemu.rs1 (h ++ r1 ++ f3 ++ r ++ op) = r1 := by
  rw [Nemu.rs1]
  ext k hk
  simp
  grind

theorem rs2_append : Nemu.rs2 (f7 ++ r2 ++ r1 ++ f3 ++ r ++ op) = r2 := by
  rw [Nemu.rs2]
  ext k hk
  simp
  grind

theorem immI_append : Nemu.immI (imm ++ r1 ++ f3 ++ r ++ op) = imm.signExtend 32 := by
  rw [Nemu.immI]
  congr 1
  ext k hk
  simp
  grind

theorem immU_append (imm : BitVec 20) : Nemu.immU (imm ++ r ++ op) = imm ++ 0#12 := by
  rw [Nemu.immU]
  ext k hk
  simp [BitVec.getElem_signExtend]
  grind

theorem immS_append :
    Nemu.immS (imm.extractLsb' 5 7 ++ r2 ++ r1 ++ f3 ++ imm.extractLsb' 0 5 ++ op) = imm.signExtend 32 := by
  rw [Nemu.immS]
  ext k hk
  simp [BitVec.getElem_signExtend]
  grind

-- What the masks of the patterns leave.

theorem opcode_append (h : BitVec 25) : (h ++ op : Word) &&& 0x7f = 0#25 ++ op := by
  have hm : (0x7f : Word) = 0#25 ++ BitVec.allOnes 7 := by decide
  rw [hm, BitVec.and_append, BitVec.and_allOnes, BitVec.and_zero]

theorem funct3_append (h : BitVec 17) : (h ++ f3 ++ r ++ op : Word) &&& 0x707f = 0#17 ++ f3 ++ 0#5 ++ op := by
  have hm : (0x707f : Word) = 0#17 ++ BitVec.allOnes 3 ++ 0#5 ++ BitVec.allOnes 7 := by decide
  rw [hm, BitVec.and_append, BitVec.and_append, BitVec.and_append, BitVec.and_allOnes, BitVec.and_allOnes,
    BitVec.and_zero, BitVec.and_zero]

end Fields

-- What the guest sees.
def guest (env : Env D) (m : Machine D R) : Rv32.State where
  regs r := m.gpr r.bits
  pc     := m.pc
  mem    := env.guest m.host

section Perform

variable {pc : Word} {imm₂₀ : BitVec 20}

theorem perform_auipc :
    sys.perform pc (Rv32.Start.auipc rd imm₂₀).encode m = setGpr rd.bits (pc + (imm₂₀ ++ 0#12)) m := by
  rw [System.perform, get_bind, get_bind, Rv32.Start.encode, opcode_append, if_pos (by decide), rd_append, immU_append]

theorem perform_lbu : sys.perform pc (Rv32.Start.lbu rd imm rs1).encode m =
    (do setGpr rd.bits (← access <| sys.vaddr_read (m.gpr rs1.bits + imm.signExtend 32) 1)) m := by
  rw [System.perform, get_bind, get_bind, Rv32.Start.encode, Rv32.Instr.encode, opcode_append, if_neg (by decide),
    funct3_append, if_pos (by decide), rd_append, rs1_append, immI_append]

theorem perform_sb : sys.perform pc (Rv32.Start.sb rs2 imm rs1).encode m =
    access (sys.vaddr_write (m.gpr rs1.bits + imm.signExtend 32) 1 (m.gpr rs2.bits)) m := by
  rw [System.perform, get_bind, get_bind, Rv32.Start.encode, Rv32.Instr.encode, opcode_append, if_neg (by decide),
    funct3_append, if_neg (by decide), if_pos (by decide), rs1_append, rs2_append, immS_append]

theorem perform_ebreak : sys.perform pc Rv32.Start.ebreak.encode m =
    set_nemu_state sys.toConfig NEMU_END pc (m.gpr 10) m := by
  rw [System.perform, get_bind, get_bind, Rv32.Start.encode, if_neg (by decide), if_neg (by decide),
    if_neg (by decide), if_pos (by decide), get_bind]

theorem exec_once_of_perform {inst : Word} (hf : sys.paddr_read m.pc 4 m.toState = .ok inst m.toState)
    (hp : sys.perform m.pc inst m = .ok () m') : exec_once sys s m.pc m =
      .ok ⟨m.pc, m.pc + 4, m.pc + 4, inst⟩ { m' with gpr := Function.update m'.gpr 0 0, pc := m.pc + 4 } := by
  have hf : (access (sys.vaddr_ifetch m.pc 4) : Exec D R Word) m = .ok inst m := access_eq_ok hf
  rw [exec_once, isa_exec_once, bind_assoc, bind_of_ok hf, decode_exec_eq, System.decode_exec, bind_assoc, bind_assoc,
    bind_of_ok hp]
  rfl

end Perform

-- An instruction with the result that RISC-V prescribes. What is not of the guest stays.
structure Executed (sys : System D R) (op : Rv32.Start) (m m' : Machine D R) : Prop where
  guest      : guest sys.toEnv m' = op.exec (guest sys.toEnv m)
  host       : ∀ a, (∀ addr, a ≠ sys.guest_to_host addr) → m'.host a = m.host a
  device     : m'.device = m.device
  nemu_state : m'.nemu_state = if op = .ebreak then ⟨NEMU_END, m.pc, m.gpr 10⟩ else m.nemu_state

section Executed

variable {op : Rv32.Start} {m₁ : Machine D R}

theorem guest_reg (h : m.gpr 0 = 0) (r : Rv32.Reg) : (guest sys.toEnv m).reg r = m.gpr r.bits := by
  rw [Rv32.State.reg]
  split
  case isTrue hr => rw [hr]; exact h.symm
  case isFalse => rfl

theorem guest_addr (h : m.gpr 0 = 0) :
    (guest sys.toEnv m).addr imm rs1 = m.gpr rs1.bits + imm.signExtend 32 := by
  rw [Rv32.State.addr, guest_reg h]

theorem bits_inj {r : Rv32.Reg} : r.bits = rd.bits ↔ r = rd :=
  ⟨fun h => congrArg BitVec.toFin h, congrArg _⟩

-- The reset of register 0 undoes what has been written to it.
theorem regs_setReg (h : m.gpr 0 = 0) (v : Word) (r : Rv32.Reg) :
    Function.update (Function.update m.gpr rd.bits v) 0 0 r.bits = ((guest sys.toEnv m).setReg rd v).regs r := by
  have hu : ((guest sys.toEnv m).setReg rd v).regs r =
      if rd = 0 then m.gpr r.bits else Function.update (guest sys.toEnv m).regs rd v r := by
    rw [Rv32.State.setReg]
    split <;> rfl
  rw [hu]
  by_cases hr : r = 0
  case pos =>
    have hz : Function.update (Function.update m.gpr rd.bits v) 0 0 r.bits = 0 := by
      rw [hr]
      exact Function.update_self ..
    rw [hz, hr]
    split
    case isTrue => exact h.symm
    case isFalse hd => rw [Function.update_of_ne (Ne.symm hd)]; exact h.symm
  case neg =>
    have hz : r.bits ≠ 0 := fun hz => hr (bits_inj.mp hz)
    rw [Function.update_of_ne hz, Function.update_apply]
    split
    case isTrue hd =>
      have hd := bits_inj.mp hd
      rw [if_neg (hd ▸ hr), ← hd, Function.update_self]
    case isFalse hd =>
      split
      case isTrue => rfl
      case isFalse => rw [Function.update_of_ne fun he => hd (congrArg _ he)]; rfl

theorem guest_setReg (h : m.gpr 0 = 0) (v : Word) :
    guest sys.toEnv { m with gpr := Function.update (Function.update m.gpr rd.bits v) 0 0, pc := m.pc + 4 } =
      ((guest sys.toEnv m).setReg rd v).next :=
  Rv32.State.ext (funext (regs_setReg h v)) (by simp [guest]) (by simp [guest])

theorem update_zero (h : m.gpr 0 = 0) : Function.update m.gpr 0 0 = m.gpr := by
  rw [← h, Function.update_eq_self]

theorem executed_setReg (h : m.gpr 0 = 0) (v : Word) (hn : op ≠ .ebreak)
    (ho : op.exec (guest sys.toEnv m) = ((guest sys.toEnv m).setReg rd v).next) :
    Executed sys op m
      { m with gpr := Function.update (Function.update m.gpr rd.bits v) 0 0, pc := m.pc + 4 } where
  guest      := (guest_setReg h v).trans ho.symm
  host _ _   := rfl
  device     := rfl
  nemu_state := (if_neg hn).symm

theorem executed_auipc {imm : BitVec 20} (h : m.gpr 0 = 0) (hf : sys.paddr_read m.pc 4 m.toState =
    .ok (Rv32.Start.auipc rd imm).encode m.toState) : ∃ s' m', exec_once sys s m.pc m = .ok s' m' ∧
      Executed sys (.auipc rd imm) m m' :=
  ⟨_, _, exec_once_of_perform hf perform_auipc, executed_setReg h _ nofun rfl⟩

theorem executed_lbu (h : m.gpr 0 = 0) (hf : sys.paddr_read m.pc 4 m.toState =
    .ok (Rv32.Start.lbu rd imm rs1).encode m.toState) (ha : sys.in_pmem ((guest sys.toEnv m).addr imm rs1) = true) :
    ∃ s' m', exec_once sys s m.pc m = .ok s' m' ∧ Executed sys (.lbu rd imm rs1) m m' := by
  have hr : sys.paddr_read ((guest sys.toEnv m).addr imm rs1) 1 m.toState = _ := Env.paddr_read_byte ha
  have hr := access_eq_ok hr
  rw [guest_addr h] at hr
  have hp : sys.perform m.pc (Rv32.Start.lbu rd imm rs1).encode m = _ := perform_lbu
  have hp := hp.trans (bind_of_ok hr)
  refine ⟨_, _, exec_once_of_perform hf hp, executed_setReg h _ nofun ?_⟩
  rw [Rv32.Start.exec, Rv32.State.exec, guest_addr h]
  rfl

theorem executed_sb (h : m.gpr 0 = 0) (hf : sys.paddr_read m.pc 4 m.toState =
    .ok (Rv32.Start.sb rs2 imm rs1).encode m.toState) (ha : sys.in_pmem ((guest sys.toEnv m).addr imm rs1) = true) :
    ∃ s' m', exec_once sys s m.pc m = .ok s' m' ∧ Executed sys (.sb rs2 imm rs1) m m' := by
  have hw : sys.paddr_write ((guest sys.toEnv m).addr imm rs1) 1 (m.gpr rs2.bits) m.toState = _ :=
    Env.paddr_write_byte ha
  have hw := access_eq_ok hw
  rw [guest_addr h] at hw
  have hp : sys.perform m.pc (Rv32.Start.sb rs2 imm rs1).encode m = _ := perform_sb
  refine ⟨_, _, exec_once_of_perform hf (hp.trans hw), ?_, fun a hn => ?_, rfl, rfl⟩
  case refine_1 =>
    rw [Rv32.Start.exec, Rv32.State.exec, guest_addr h, guest_reg h]
    refine Rv32.State.ext ?_ rfl (Env.guest_store _)
    rw [update_zero h]
    rfl
  case refine_2 =>
    rw [Memory.store_one]
    exact Function.update_of_ne (hn _) _ _

theorem set_nemu_state_run (cfg : Config) (state : RunState) (pc : Word) (halt_ret : BitVec 32) (m : Machine D R) :
    ∃ skip nr, set_nemu_state cfg state pc halt_ret m = .ok () { m with
      is_skip_ref := skip, skip_dut_nr_inst := nr, nemu_state := ⟨state, pc, halt_ret⟩ } := by
  cases hd : cfg.DIFFTEST
  case true =>
    refine ⟨true, 0, ?_⟩
    simp only [set_nemu_state, difftest_skip_ref, hd]
    rfl
  case false =>
    refine ⟨m.is_skip_ref, m.skip_dut_nr_inst, ?_⟩
    simp only [set_nemu_state, difftest_skip_ref, hd]
    rfl

theorem executed_ebreak (h : m.gpr 0 = 0) (hf : sys.paddr_read m.pc 4 m.toState =
    .ok Rv32.Start.ebreak.encode m.toState) : ∃ s' m', exec_once sys s m.pc m = .ok s' m' ∧
      Executed sys .ebreak m m' := by
  have ⟨_, _, hs⟩ := set_nemu_state_run sys.toConfig NEMU_END m.pc (m.gpr 10) m
  refine ⟨_, _, exec_once_of_perform hf (perform_ebreak.trans hs), ?_, fun _ _ => rfl, rfl, rfl⟩
  simp only [update_zero h]
  rfl

end Executed

-- In every run register 0 is 0 again after every step, and the implemented instructions have their RISC-V meaning.
theorem instruction_meaning (sys : System D R) (m₀ : Machine D R) (ls : List Label) (c : Control) (m : Machine D R)
    (hz : m₀.gpr 0 = 0) (hr : Run sys (.prompt, m₀) ls (c, m)) :
    m.gpr 0 = 0 ∧ ∀ (s : Decode) (op : Rv32.Start), (∀ i < 4, sys.InPmem (m.pc.toNat + i)) →
      (guest sys.toEnv m).mem.load32 m.pc = op.encode →
      (∀ a ∈ op.access (guest sys.toEnv m), sys.in_pmem a = true) →
      ∃ s' m', exec_once sys s m.pc m = .ok s' m' ∧ Executed sys op m m' := by
  have h : m.gpr 0 = 0 := gpr_zero_of_run (p := (.prompt, m₀)) hz hr
  refine ⟨h, fun s op hp hi ha => ?_⟩
  have hf : sys.paddr_read m.pc 4 m.toState = .ok ((guest sys.toEnv m).mem.load32 m.pc) m.toState :=
    Env.paddr_read_load32 hp
  rw [hi] at hf
  cases op
  case auipc => exact executed_auipc h hf
  case lbu => exact executed_lbu h hf (ha _ rfl)
  case sb => exact executed_sb h hf (ha _ rfl)
  case ebreak => exact executed_ebreak h hf

-- The `ebreak` at the reset vector.
theorem instruction_meaning_trap : ∃ s' m', exec_once trapSystem ⟨0, 0, 0, 0⟩ 0x80000000 trapMachine = .ok s' m' ∧
    Executed trapSystem .ebreak trapMachine m' := by
  have h := instruction_meaning trapSystem trapMachine [] .prompt trapMachine rfl .nil
  refine h.right ⟨0, 0, 0, 0⟩ .ebreak (fun i hi => ?_) (by decide) nofun
  have hp : trapSystem.MBASE = 0x80000000 ∧ trapSystem.MSIZE = 0x8000000 := ⟨rfl, rfl⟩
  have hpc : trapMachine.pc.toNat = 0x80000000 := by decide
  simp only [Env.InPmem, hp, hpc]
  omega

end Nemu.Riscv32
