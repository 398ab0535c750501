import Ysyx.Nemu.Theorems.Riscv32

-- The report of instructions that are not implemented.

namespace Nemu.Riscv32

variable {D R : Type} {sys : System D R} {env : Env D} {m m' : Machine D R} {st st' : State D}
variable {addr inst pc npc v : Word} {n : BitVec 64}

open EState (bind_of_ok bind_of_error bind_ok_iff get_bind discard_bind)

section Decode

variable {op : BitVec 7} {f3 : BitVec 3}

-- A word in the fields of its format.

theorem fields_U (i : Word) : i = i.extractLsb' 12 20 ++ Nemu.rd i ++ i.extractLsb' 0 7 := by
  rw [Nemu.rd]
  ext k hk
  simp
  grind

theorem fields_I (i : Word) :
    i = i.extractLsb' 20 12 ++ Nemu.rs1 i ++ i.extractLsb' 12 3 ++ Nemu.rd i ++ i.extractLsb' 0 7 := by
  rw [Nemu.rd, Nemu.rs1]
  ext k hk
  simp
  grind

theorem fields_S (i : Word) : i = (i.extractLsb' 25 7 ++ Nemu.rd i).extractLsb' 5 7 ++ Nemu.rs2 i ++ Nemu.rs1 i ++
    i.extractLsb' 12 3 ++ (i.extractLsb' 25 7 ++ Nemu.rd i).extractLsb' 0 5 ++ i.extractLsb' 0 7 := by
  rw [Nemu.rd, Nemu.rs1, Nemu.rs2]
  ext k hk
  simp
  grind

theorem fields_of_append {k l : Nat} {a b : BitVec k} {c d : BitVec l} (h : a ++ c = b ++ d) : a = b ∧ c = d := by
  have ha := congrArg (BitVec.extractLsb' l k) h
  have hc := congrArg (BitVec.extractLsb' 0 l) h
  rw [BitVec.extractLsb'_append_eq_left, BitVec.extractLsb'_append_eq_left] at ha
  rw [BitVec.extractLsb'_append_eq_right, BitVec.extractLsb'_append_eq_right] at hc
  exact ⟨ha, hc⟩

theorem opcode_of_and (h : inst &&& 0x7f = 0#25 ++ op) : inst.extractLsb' 0 7 = op := by
  rw [fields_U inst, opcode_append] at h
  exact (fields_of_append h).right

theorem funct3_of_and (h : inst &&& 0x707f = 0#17 ++ f3 ++ 0#5 ++ op) :
    inst.extractLsb' 12 3 = f3 ∧ inst.extractLsb' 0 7 = op := by
  rw [fields_I inst, funct3_append] at h
  have ⟨h, ho⟩ := fields_of_append h
  exact ⟨(fields_of_append (fields_of_append h).left).right, ho⟩

-- The words that the patterns accept are encodings.

theorem auipc_of_and (h : inst &&& 0x7f = 0x17) : ∃ op : Rv32.Start, inst = op.encode := by
  have hf := fields_U inst
  have ho : inst.extractLsb' 0 7 = 0x17 := opcode_of_and h
  rw [ho] at hf
  exact ⟨.auipc (Nemu.rd inst).toFin (inst.extractLsb' 12 20), hf⟩

theorem lbu_of_and (h : inst &&& 0x707f = 0x4003) : ∃ op : Rv32.Start, inst = op.encode := by
  have hf := fields_I inst
  have ⟨h₃, ho⟩ : inst.extractLsb' 12 3 = 4 ∧ inst.extractLsb' 0 7 = 0x3 := funct3_of_and h
  rw [h₃, ho] at hf
  exact ⟨.lbu (Nemu.rd inst).toFin (inst.extractLsb' 20 12) (Nemu.rs1 inst).toFin, hf⟩

theorem sb_of_and (h : inst &&& 0x707f = 0x23) : ∃ op : Rv32.Start, inst = op.encode := by
  have hf := fields_S inst
  have ⟨h₃, ho⟩ : inst.extractLsb' 12 3 = 0 ∧ inst.extractLsb' 0 7 = 0x23 := funct3_of_and h
  rw [h₃, ho] at hf
  exact ⟨.sb (Nemu.rs2 inst).toFin (inst.extractLsb' 25 7 ++ Nemu.rd inst) (Nemu.rs1 inst).toFin, hf⟩

theorem perform_of_invalid (h : ∀ op : Rv32.Start, inst ≠ op.encode) :
    sys.perform pc inst m = sys.invalid_inst pc m := by
  have no {p : Prop} (hp : p → ∃ op : Rv32.Start, inst = op.encode) : ¬p := fun hq =>
    have ⟨op, ho⟩ := hp hq
    h op ho
  have he : ¬inst = 0x00100073 := h .ebreak
  rw [System.perform, get_bind, get_bind, if_neg (no auipc_of_and), if_neg (no lbu_of_and), if_neg (no sb_of_and),
    if_neg he]

end Decode

-- A word can be read at `addr`, and no device that is asked for it does anything.
def Quiet (env : Env D) (addr : Word) (st : State D) : Prop :=
  env.in_pmem addr = true ∨ ∃ map ∈ env.selected addr, ∀ c ∈ map.callback, ∃ st',
    c (addr - map.low) 4 false (skipped env.toConfig st) = .ok st' ∧ st'.host = st.host ∧ st'.device = st.device

section Refetch

theorem skipped_host {cfg : Config} : (skipped cfg st).host = st.host := by
  rw [skipped]
  split <;> rfl

theorem skipped_device {cfg : Config} : (skipped cfg st).device = st.device := by
  rw [skipped]
  split <;> rfl

theorem quiet_map_iff {map : IOMap D} (h : env.in_pmem addr = false) (hs : env.selected addr = some map) :
    Quiet env addr st ↔ ∀ c ∈ map.callback, ∃ st', c (addr - map.low) 4 false (skipped env.toConfig st) = .ok st' ∧
      st'.host = st.host ∧ st'.device = st.device := by
  simp [Quiet, h, hs]

theorem quiet_iff : Quiet env addr st ↔
    ∃ v st', env.paddr_read addr 4 st = .ok v st' ∧ st'.host = st.host ∧ st'.device = st.device := by
  by_cases hp : env.in_pmem addr = true
  case pos => exact ⟨fun _ => ⟨_, st, Env.paddr_read_word hp, rfl, rfl⟩, fun _ => .inl hp⟩
  rw [Bool.not_eq_true] at hp
  cases hs : env.selected addr
  case none =>
    have ⟨e, _, he⟩ := Env.paddr_read_unselected (s := st) (.inr (.inr rfl)) hp hs
    rw [Quiet, hp, hs, he]
    exact ⟨fun h => h.elim nofun nofun, nofun⟩
  case some map =>
    rw [quiet_map_iff hp hs, Env.paddr_read_map hp hs]
    cases hc : map.callback
    case none =>
      rw [bind_of_ok (invoke_callback_none hc), host_read_four]
      exact ⟨fun _ => ⟨_, _, rfl, skipped_host, skipped_device⟩, fun _ => nofun⟩
    case some c =>
      have hi : invoke_callback map (addr - map.low) 4 false (skipped env.toConfig st) = _ := invoke_callback_some hc
      cases hr : c (addr - map.low) 4 false (skipped env.toConfig st)
      case error message =>
        rw [hr] at hi
        rw [bind_of_error hi]
        refine ⟨fun h => ?_, nofun⟩
        have ⟨_, h, _⟩ := h c rfl
        rw [hr] at h
        cases h
      case ok st' =>
        rw [hr] at hi
        rw [bind_of_ok hi, host_read_four]
        refine ⟨fun h => ?_, fun ⟨_, _, h, hh, hd⟩ c' hc' => ?_⟩
        case refine_1 =>
          have ⟨_, h, hh, hd⟩ := h c rfl
          cases hr.symm.trans h
          exact ⟨_, _, rfl, hh, hd⟩
        case refine_2 =>
          cases hc'
          cases h
          exact ⟨_, hr, hh, hd⟩

end Refetch

-- The machine behind an instruction that is not implemented, where the second fetch has left `st` behind.
structure Aborted (m : Machine D R) (st : State D) (m' : Machine D R) : Prop where
  nemu_state : m'.nemu_state = ⟨NEMU_ABORT, m.pc, -1⟩
  gpr        : m'.gpr = Function.update m.gpr 0 0
  host       : m'.host = st.host
  device     : m'.device = st.device

-- The debugger is back at its prompt, and only the program counter has changed.
def Reports (sys : System D R) (m : Machine D R) : Prop :=
  ∀ n : BitVec 64, n ≠ 0 → ∃ m', sys.cpu_exec n m = .ok () m' ∧ m'.nemu_state = ⟨NEMU_ABORT, m.pc, -1⟩ ∧
    m'.gpr = m.gpr ∧ m'.host = m.host ∧ m'.device = m.device

section Abort

theorem Aborted.ended (h : Aborted m st m') : m'.Ended := by
  simp [Machine.Ended, h.nemu_state]

-- The word at the program counter is not an instruction.
structure Unknown (sys : System D R) (m : Machine D R) (inst : Word) : Prop where
  fetch  : sys.paddr_read m.pc 4 m.toState = .ok inst m.toState
  encode : ∀ op : Rv32.Start, inst ≠ op.encode

theorem exec_once_of_unknown (h : Unknown sys m inst) (hr : sys.paddr_read (m.pc + 4) 4 m.toState = .ok v st') :
    ∃ m', sys.exec_once m.pc m = .ok () m' ∧ Aborted m st' m' := by
  have h₁ : (access (sys.vaddr_ifetch m.pc 4) : Exec D R Word) m = .ok inst m := access_eq_ok h.fetch
  have h₂ : (access (sys.vaddr_ifetch (m.pc + 4) 4) : Exec D R Word) m = .ok v { m with toState := st' } :=
    access_eq_ok hr
  have ⟨skip, nr, hs⟩ := set_nemu_state_run sys.toConfig NEMU_ABORT m.pc (-1) { m with toState := st' }
  have hp : sys.perform m.pc inst m = .ok () { m with
      toState    := { st' with is_skip_ref := skip, skip_dut_nr_inst := nr }
      nemu_state := ⟨NEMU_ABORT, m.pc, -1⟩ } := by
    rw [perform_of_invalid h.encode, System.invalid_inst, discard_bind, bind_of_ok h₁, discard_bind, bind_of_ok h₂, hs]
  rw [System.exec_once, bind_of_ok h₁, System.decode_exec, bind_assoc, bind_of_ok hp]
  exact ⟨_, rfl, rfl, rfl, rfl, rfl⟩

-- The second word has been fetched.
theorem refetched_of_exec_once (h : Unknown sys m inst) (he : sys.exec_once m.pc m = .ok () m') :
    ∃ v st', sys.paddr_read (m.pc + 4) 4 m.toState = .ok v st' := by
  have h₁ : (access (sys.vaddr_ifetch m.pc 4) : Exec D R Word) m = .ok inst m := access_eq_ok h.fetch
  rw [System.exec_once, bind_of_ok h₁] at he
  obtain ⟨_, _, hd, _⟩ := bind_ok_iff.mp he
  obtain ⟨_, _, hp, _⟩ := bind_ok_iff.mp hd
  rw [perform_of_invalid h.encode, System.invalid_inst, discard_bind, bind_of_ok h₁, discard_bind] at hp
  obtain ⟨v, m₁, ha, _⟩ := bind_ok_iff.mp hp
  rw [access] at ha
  split at ha
  case h_1 v st' hr => exact ⟨v, st', hr⟩
  case h_2 => cases ha

theorem trace_run_of_trapped (pc npc : Word) (h : Trapped sys.toConfig m) :
    ∃ m', sys.trace_and_difftest pc npc m = .ok () m' ∧ m'.host = m.host ∧ m'.device = m.device := by
  rw [System.trace_and_difftest]
  split
  case isTrue hd =>
    obtain ⟨hr, hz⟩ := h.skip hd
    simp only [System.difftest_step, get_bind, hr, hz, Nat.lt_irrefl, if_false, if_true, gt_iff_lt]
    exact ⟨_, rfl, rfl, rfl⟩
  case isFalse => exact ⟨_, rfl, rfl, rfl⟩

theorem trapped_of_exec_once (hn : ¬m.Ended) (he : sys.exec_once m.pc m = .ok () m') (h : m'.Ended) :
    Trapped sys.toConfig m' := by
  refine (exec_once_ok he).state.resolve_left fun hs => hn ?_
  exact ended_of_state (congrArg NEMUState.state hs.symm) h

theorem iteration_of_unknown (h : Unknown sys m inst) (hn : ¬m.Ended)
    (hr : sys.paddr_read (m.pc + 4) 4 m.toState = .ok v st') :
    ∃ m', sys.iteration m = .ok false m' ∧ Aborted m st' m' := by
  have ⟨m₁, he, ha⟩ := exec_once_of_unknown h hr
  have ht := trapped_of_exec_once hn he ha.ended
  have ht : Trapped sys.toConfig (count m₁) := ⟨ht.state, ht.skip⟩
  have ⟨m₂, hc, hh, hd⟩ := trace_run_of_trapped m.pc m₁.pc ht
  have hs := trace_of_trapped ht hc
  have hg := gpr_of_trace hc
  have ha₂ : Aborted m st' m₂ := ⟨hs.trans ha.nemu_state, hg.trans ha.gpr, hh.trans ha.host, hd.trans ha.device⟩
  refine ⟨m₂, ?_, ha₂⟩
  have hm : (modify fun m => { m with g_nr_guest_inst := m.g_nr_guest_inst + 1 } : Exec D R Unit) m₁ =
    .ok () (count m₁) := rfl
  have hc : sys.trace_and_difftest m.pc (count m₁).pc (count m₁) = .ok () m₂ := hc
  rw [System.iteration, get_bind, bind_of_ok he, bind_of_ok hm, get_bind, bind_of_ok hc, get_bind,
    if_pos ha₂.ended.not_running]
  rfl

theorem succ_of_ne_zero (hn : n ≠ 0) : ∃ k, n.toNat = k + 1 :=
  Nat.exists_eq_succ_of_ne_zero fun h => hn (BitVec.eq_of_toNat_eq h)

theorem cpu_exec_of_unknown (h : Unknown sys m inst) (hm : ¬m.Ended) (hn : n ≠ 0)
    (hr : sys.paddr_read (m.pc + 4) 4 m.toState = .ok v st') :
    ∃ m', sys.cpu_exec n m = .ok () m' ∧ Aborted m st' m' := by
  have ⟨k, hk⟩ := succ_of_ne_zero hn
  have h : Unknown sys (running m) inst := ⟨h.fetch, h.encode⟩
  have ⟨m', hi, ha⟩ := iteration_of_unknown h (by simp [Machine.Ended, running]) hr
  have ha : Aborted m st' m' := ⟨ha.nemu_state, ha.gpr, ha.host, ha.device⟩
  have hx : sys.execute (k + 1) (running m) = .ok () m' := by
    rw [execute_succ, bind_of_ok hi]
    rfl
  refine ⟨m', ?_, ha⟩
  rw [cpu_exec_of_not_ended hm, hk, bind_of_ok hx, settle_of_ended ha.ended]

theorem refetched_of_cpu_exec (h : Unknown sys m inst) (hm : ¬m.Ended) (hn : n ≠ 0)
    (he : sys.cpu_exec n m = .ok () m') : ∃ v st', sys.paddr_read (m.pc + 4) 4 m.toState = .ok v st' := by
  have ⟨k, hk⟩ := succ_of_ne_zero hn
  have h : Unknown sys (running m) inst := ⟨h.fetch, h.encode⟩
  rw [cpu_exec_of_not_ended hm, hk] at he
  have ⟨_, m₁, hx, _⟩ := bind_ok_iff.mp he
  rw [execute_succ] at hx
  have ⟨_, m₂, hi, _⟩ := bind_ok_iff.mp hx
  have ⟨_, _, he, _⟩ := iteration_ok hi
  have hf := refetched_of_exec_once h he
  exact hf

theorem reports_iff (h : Unknown sys m inst) (hm : ¬m.Ended) :
    Reports sys m ↔ m.gpr 0 = 0 ∧ Quiet sys.toEnv (m.pc + 4) m.toState := by
  refine ⟨fun hr => ?_, fun ⟨hz, hq⟩ n hn => ?_⟩
  case refine_1 =>
    have ⟨m', he, _, hg, hh, hd⟩ := hr 1 (by decide)
    have ⟨v, st', hf⟩ := refetched_of_cpu_exec h hm (by decide) he
    have ⟨m'', he', ha⟩ := cpu_exec_of_unknown (n := 1) h hm (by decide) hf
    cases he.symm.trans he'
    refine ⟨?_, quiet_iff.mpr ⟨v, st', hf, ha.host.symm.trans hh, ha.device.symm.trans hd⟩⟩
    rw [← hg, ha.gpr]
    exact Function.update_self ..
  case refine_2 =>
    have ⟨v, st', hf, hh, hd⟩ := quiet_iff.mp hq
    have ⟨m', he, ha⟩ := cpu_exec_of_unknown h hm hn hf
    exact ⟨m', he, ha.nemu_state, ha.gpr.trans (update_zero hz), ha.host.trans hh, ha.device.trans hd⟩

end Abort

-- A word that is no instruction is reported if the word behind it can be fetched without an effect.
theorem invalid_reported_iff (sys : System D R) (m : Machine D R) (hp : ∀ i < 4, sys.InPmem (m.pc.toNat + i))
    (hi : ∀ op : Rv32.Start, (guest sys.toEnv m).mem.load32 m.pc ≠ op.encode) (hm : ¬m.Ended) :
    Reports sys m ↔ m.gpr 0 = 0 ∧ Quiet sys.toEnv (m.pc + 4) m.toState :=
  reports_iff ⟨Env.paddr_read_load32 hp, hi⟩ hm

-- The zeros behind the `ebreak`.

def zeroMachine (pc : Word) : Machine Unit Unit :=
  { trapMachine with pc }

theorem zero_ne_encode (op : Rv32.Start) : (0 : Word) ≠ op.encode := by
  intro h
  have hf {a : BitVec 25} {c : BitVec 7} (h : (0 : Word) = a ++ c) : (0 : BitVec 7) = c :=
    (fields_of_append (a := (0 : BitVec 25)) (c := (0 : BitVec 7)) h).right
  cases op
  case auipc => exact absurd (hf h) (by decide)
  case lbu => exact absurd (hf h) (by decide)
  case sb => exact absurd (hf h) (by decide)
  case ebreak => exact absurd h (by decide)

theorem inPmem_zeroMachine {pc : Word} (h : 0x80000000 ≤ pc.toNat ∧ pc.toNat + 4 ≤ 0x88000000) :
    ∀ i < 4, trapSystem.InPmem ((zeroMachine pc).pc.toNat + i) := by
  intro i hi
  have hp : trapSystem.MBASE = 0x80000000 ∧ trapSystem.MSIZE = 0x8000000 := ⟨rfl, rfl⟩
  simp only [Env.InPmem, hp, zeroMachine]
  omega

theorem invalid_reported_zero : Reports trapSystem (zeroMachine 0x80000004) ↔
    (zeroMachine 0x80000004).gpr 0 = 0 ∧ Quiet trapSystem.toEnv (0x80000004 + 4) (zeroMachine 0x80000004).toState := by
  have hl : (guest trapSystem.toEnv (zeroMachine 0x80000004)).mem.load32 (zeroMachine 0x80000004).pc = 0 := by decide
  refine invalid_reported_iff trapSystem (zeroMachine 0x80000004) (inPmem_zeroMachine (by decide)) (fun op => ?_) ?_
  case refine_1 => rw [hl]; exact zero_ne_encode op
  case refine_2 => simp [Machine.Ended, zeroMachine, trapMachine]

-- Behind the last word of the physical memory there is nothing to be fetched.
theorem invalid_not_reported : ¬∀ (sys : System Unit Unit) (m : Machine Unit Unit),
    (∀ i < 4, sys.InPmem (m.pc.toNat + i)) → (∀ op : Rv32.Start, (guest sys.toEnv m).mem.load32 m.pc ≠ op.encode) →
    m.gpr 0 = 0 → ¬m.Ended → Reports sys m := by
  intro h
  have hl : (guest trapSystem.toEnv (zeroMachine 0x87fffffc)).mem.load32 (zeroMachine 0x87fffffc).pc = 0 := by decide
  have hr := h trapSystem (zeroMachine 0x87fffffc) (inPmem_zeroMachine (by decide))
    (fun op => hl ▸ zero_ne_encode op) rfl (by simp [Machine.Ended, zeroMachine, trapMachine])
  obtain ⟨_, he, _⟩ := hr 1 (by decide)
  have hs : ∃ e m', trapSystem.cpu_exec 1 (zeroMachine 0x87fffffc) = .error e m' := ⟨_, _, rfl⟩
  obtain ⟨_, _, hs⟩ := hs
  cases he.symm.trans hs

end Nemu.Riscv32
