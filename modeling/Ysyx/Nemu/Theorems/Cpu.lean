import Ysyx.Monads.EState
import Ysyx.Nemu.Run
import Ysyx.Nemu.Theorems.Paddr

-- What the parts of one iteration of `execute` do to the state of NEMU, and how runs of `cpu_exec` compose.

namespace Nemu

variable {D R α : Type} {sys : System D R} {cfg : Config} {m m' : Machine D R} {x : M D α}
variable {pc npc snpc inst : Word} {n : Nat}

open EState (Keeps bind_ok_iff bind_of_ok bind_of_error)

-- The state of NEMU and the pending events.
def Machine.control (m : Machine D R) : NEMUState × List (List Event) :=
  (m.nemu_state, m.events)

-- In addition what decides whether the next step of differential testing compares.
def Machine.compared (m : Machine D R) : (NEMUState × List (List Event)) × Bool × Nat :=
  (m.control, m.is_skip_ref, m.skip_dut_nr_inst)

theorem access_eq_ok {v : α} {s : State D} (h : x m.toState = .ok v s) :
    (access x : Exec D R α) m = .ok v { m with toState := s } := by
  rw [access, h]

theorem access_eq_error {e : Stop} {s : State D} (h : x m.toState = .error e s) :
    (access x : Exec D R α) m = .error (.stop e) { m with toState := s } := by
  rw [access, h]

section Keeps

theorem access_keeps : Keeps Machine.control (access x : Exec D R α) := by
  intro m v m' h
  unfold access at h
  split at h
  case h_1 => cases h; rfl
  case h_2 => cases h

theorem setGpr_keeps {i : BitVec 5} {v : Word} : Keeps Machine.compared (setGpr i v : Exec D R Unit) :=
  .modify fun _ => rfl

theorem keeps_control {x : Exec D R α} (h : Keeps Machine.compared x) : Keeps Machine.control x :=
  fun m v m' he => congrArg Prod.fst (h m v m' he)

end Keeps

-- The program has ended with a trap, which is not compared.
structure Trapped (cfg : Config) (m : Machine D R) : Prop where
  state : m.nemu_state.state = NEMU_END ∨ m.nemu_state.state = NEMU_ABORT
  skip  : cfg.DIFFTEST = true → m.is_skip_ref = true ∧ m.skip_dut_nr_inst = 0

-- One instruction either leaves the state of NEMU alone or ends the program.
structure Executes (cfg : Config) (m m' : Machine D R) : Prop where
  events : m'.events = m.events
  state  : m'.nemu_state = m.nemu_state ∨ Trapped cfg m'

theorem executes_of_control (h : m'.control = m.control) : Executes cfg m m' :=
  ⟨congrArg Prod.snd h, .inl (congrArg Prod.fst h)⟩

theorem Executes.compared {m'' : Machine D R} (h : Executes cfg m m') (hc : m''.compared = m'.compared) :
    Executes cfg m m'' := by
  have hn : m''.nemu_state = m'.nemu_state := congrArg (·.1.1) hc
  have he : m''.events = m'.events := congrArg (·.1.2) hc
  have hs : m''.is_skip_ref = m'.is_skip_ref := congrArg (·.2.1) hc
  have hd : m''.skip_dut_nr_inst = m'.skip_dut_nr_inst := congrArg (·.2.2) hc
  have ⟨hev, hst⟩ := h
  refine ⟨he.trans hev, hst.imp hn.trans fun ⟨hst, hsk⟩ => ⟨hn ▸ hst, fun hf => ?_⟩⟩
  exact ⟨hs.trans (hsk hf).left, hd.trans (hsk hf).right⟩

theorem Executes.after {m₁ : Machine D R} (hc : m₁.control = m.control) (h : Executes cfg m₁ m') :
    Executes cfg m m' := by
  have hn : m₁.nemu_state = m.nemu_state := congrArg Prod.fst hc
  have he : m₁.events = m.events := congrArg Prod.snd hc
  exact ⟨h.events.trans he, hn ▸ h.state⟩

theorem set_nemu_state_ok {state : RunState} {halt_ret : BitVec 32} (hs : state = NEMU_END ∨ state = NEMU_ABORT)
    (h : set_nemu_state cfg state pc halt_ret m = .ok () m') : Executes cfg m m' := by
  have ⟨_, m₁, ha, hm⟩ := bind_ok_iff.mp h
  have he : m₁.events = m.events := congrArg Prod.snd (access_keeps m () m₁ ha)
  cases hm
  refine ⟨he, .inr ⟨hs, fun hd => ?_⟩⟩
  simp only [access, difftest_skip_ref, hd, if_true] at ha
  cases ha
  exact ⟨rfl, rfl⟩

theorem invalid_inst_ok (h : sys.invalid_inst pc m = .ok () m') : Executes sys.toConfig m m' := by
  have ⟨_, m₁, h₁, h⟩ := bind_ok_iff.mp h
  have ⟨_, m₂, h₂, h⟩ := bind_ok_iff.mp h
  have hf : ∀ a : Word, Keeps Machine.control (discard (access (sys.vaddr_ifetch a 4)) : Exec D R PUnit) :=
    fun a => access_keeps.bind fun _ => .pure
  exact Executes.after (hf _ _ _ _ h₁) <| Executes.after (hf _ _ _ _ h₂) <| set_nemu_state_ok (.inr rfl) h

theorem perform_ok (h : sys.perform pc inst m = .ok () m') : Executes sys.toConfig m m' := by
  simp only [System.perform, EState.get_bind] at h
  split at h
  case isTrue => exact executes_of_control (keeps_control setGpr_keeps _ _ _ h)
  split at h
  case isTrue =>
    have ⟨v, m₁, ha, hs⟩ := bind_ok_iff.mp h
    exact executes_of_control ((keeps_control setGpr_keeps _ _ _ hs).trans (access_keeps _ _ _ ha))
  split at h
  case isTrue => exact executes_of_control (access_keeps _ _ _ h)
  split at h
  case isTrue => exact set_nemu_state_ok (.inl rfl) h
  case isFalse => exact invalid_inst_ok h

theorem exec_once_ok (h : sys.exec_once pc m = .ok () m') : Executes sys.toConfig m m' := by
  have ⟨inst, m₁, hf, h⟩ := bind_ok_iff.mp h
  have ⟨dnpc, m₂, hd, h⟩ := bind_ok_iff.mp h
  have ⟨_, m₃, hp, hd⟩ := bind_ok_iff.mp hd
  have ⟨_, m₄, hg, hd⟩ := bind_ok_iff.mp hd
  cases hd
  cases h
  have hc : m₂.compared = m₃.compared := setGpr_keeps _ _ _ hg
  exact Executes.after (access_keeps _ _ _ hf) ((perform_ok hp).compared hc)

section Difftest

theorem checkregs_ok {ref_r : CPU_state} (h : System.checkregs ref_r pc m = .ok () m') :
    m'.events = m.events ∧ m'.nemu_state.state = NEMU_ABORT := by
  cases h
  exact ⟨rfl, rfl⟩

theorem difftest_step_ok (h : sys.difftest_step pc npc m = .ok () m') :
    m'.events = m.events ∧ (m'.nemu_state = m.nemu_state ∨ m'.nemu_state.state = NEMU_ABORT) := by
  simp only [System.difftest_step, EState.get_bind] at h
  split at h
  case isTrue =>
    split at h
    case isTrue =>
      have ⟨_, m₁, hs, hc⟩ := bind_ok_iff.mp h
      cases hs
      have ⟨he, hc⟩ := checkregs_ok hc
      exact ⟨he, .inr hc⟩
    case isFalse =>
      have ⟨_, m₁, hs, hc⟩ := bind_ok_iff.mp h
      cases hs
      split at hc
      case isTrue => cases hc
      case isFalse => cases hc; exact ⟨rfl, .inl rfl⟩
  case isFalse =>
    split at h
    case isTrue => cases h; exact ⟨rfl, .inl rfl⟩
    case isFalse =>
      have ⟨_, m₁, hs, hc⟩ := bind_ok_iff.mp h
      cases hs
      have ⟨he, hc⟩ := checkregs_ok hc
      exact ⟨he, .inr hc⟩

theorem trace_ok (h : sys.trace_and_difftest pc npc m = .ok () m') :
    m'.events = m.events ∧ (m'.nemu_state = m.nemu_state ∨ m'.nemu_state.state = NEMU_ABORT) := by
  rw [System.trace_and_difftest] at h
  split at h
  case isTrue => exact difftest_step_ok h
  case isFalse => cases h; exact ⟨rfl, .inl rfl⟩

-- After a trap nothing is compared.
theorem trace_of_trapped (ht : Trapped sys.toConfig m) (h : sys.trace_and_difftest pc npc m = .ok () m') :
    m'.nemu_state = m.nemu_state := by
  rw [System.trace_and_difftest] at h
  split at h
  case isTrue hd =>
    have ⟨hr, hz⟩ := ht.skip hd
    simp only [System.difftest_step, EState.get_bind, hr, hz, Nat.lt_irrefl, if_false, if_true, gt_iff_lt] at h
    cases h
    rfl
  case isFalse => cases h; rfl

end Difftest

section Iteration

variable {b : Bool}

-- Instruction, comparison, test and device input.
theorem iteration_ok (h : sys.iteration m = .ok b m') : ∃ m₁ m₂, sys.exec_once m.pc m = .ok () m₁ ∧
    sys.trace_and_difftest m.pc m₁.pc (count m₁) = .ok () m₂ ∧
    (m₂.nemu_state.state ≠ NEMU_RUNNING ∧ b = false ∧ m' = m₂ ∨
      m₂.nemu_state.state = NEMU_RUNNING ∧ b = true ∧
        sys.poll m₂ = .ok () m') := by
  rw [System.iteration, EState.get_bind] at h
  have ⟨_, m₁, he, h⟩ := bind_ok_iff.mp h
  have ⟨_, m₂, hc, h⟩ := bind_ok_iff.mp h
  cases hc
  rw [EState.get_bind] at h
  have ⟨_, m₃, ht, h⟩ := bind_ok_iff.mp h
  refine ⟨m₁, m₃, he, ht, ?_⟩
  rw [EState.get_bind] at h
  split at h
  case isTrue hn => cases h; exact .inl ⟨hn, rfl, rfl⟩
  case isFalse hn =>
    have ⟨_, m₄, hd, h⟩ := bind_ok_iff.mp h
    cases h
    exact .inr ⟨not_not.mp hn, rfl, hd⟩

theorem Trapped.ended (h : Trapped cfg m) : m.Ended := by
  cases h.state <;> simp [Machine.Ended, *]

theorem Machine.Ended.not_running (h : m.Ended) : m.nemu_state.state ≠ NEMU_RUNNING := by
  intro hr
  rw [Machine.Ended, hr] at h
  simp at h

-- The state of NEMU after an instruction and its comparison.
theorem state_of_trace {m₁ m₂ : Machine D R} (hr : m.nemu_state.state = NEMU_RUNNING)
    (he : sys.exec_once m.pc m = .ok () m₁) (ht : sys.trace_and_difftest pc npc (count m₁) = .ok () m₂) :
    m₂.events = m.events ∧ (m₂.nemu_state.state = NEMU_RUNNING ∨ m₂.Ended) := by
  have ⟨hev, hst⟩ := exec_once_ok he
  have ⟨hev', hst'⟩ := trace_ok ht
  refine ⟨hev'.trans hev, ?_⟩
  cases hst
  case inl hst =>
    cases hst'
    case inl hst' => exact .inl ((congrArg NEMUState.state (hst'.trans hst)).trans hr)
    case inr hst' => exact .inr (by simp [Machine.Ended, hst'])
  case inr hst =>
    have hst' := trace_of_trapped (m := count m₁) ⟨hst.state, hst.skip⟩ ht
    exact .inr (by rw [Machine.Ended, hst']; exact hst.ended)

theorem device_update_of_nil (h : m.events = []) : sys.device_update m = .ok () m := by
  have hm : { m with events := m.events.tail } = m := by
    rw [h, List.tail_nil, ← h]
  simp only [System.device_update, EState.get_bind, h, List.headD_nil]
  rw [h] at hm
  exact congrArg _ hm

-- Without device input the loop goes on while NEMU is running.
theorem iteration_of_nil (hr : m.nemu_state.state = NEMU_RUNNING) (hn : m.events = [])
    (h : sys.iteration m = .ok b m') : m'.events = [] ∧
    (b = true ∧ m'.nemu_state.state = NEMU_RUNNING ∨ b = false ∧ m'.Ended) := by
  have ⟨m₁, m₂, he, ht, hc⟩ := iteration_ok h
  have ⟨hev, hst⟩ := state_of_trace hr he ht
  rw [hn] at hev
  obtain ⟨hnr, hb, hm⟩ | ⟨hr, hb, hd⟩ := hc
  case inl =>
    subst hm
    exact ⟨hev, .inr ⟨hb, hst.resolve_left hnr⟩⟩
  case inr =>
    have hm : m' = m₂ := by
      rw [System.poll] at hd
      split at hd
      case isTrue =>
        rw [device_update_of_nil hev] at hd
        cases hd
        rfl
      case isFalse => cases hd; rfl
    exact ⟨hm ▸ hev, .inl ⟨hb, hm ▸ hr⟩⟩

end Iteration

section Compose

variable {a b k : Nat}

theorem execute_succ : sys.execute (n + 1) m =
    (sys.iteration >>= fun continues => if continues then sys.execute n else pure ()) m := (rfl)

-- What a run of the loop without device input ends with.
theorem execute_of_nil (hr : m.nemu_state.state = NEMU_RUNNING) (hn : m.events = [])
    (h : sys.execute n m = .ok () m') :
    m'.events = [] ∧ (m'.nemu_state.state = NEMU_RUNNING ∨ m'.Ended) := by
  induction n generalizing m
  case zero => cases h; exact ⟨hn, .inl hr⟩
  case succ n hi =>
    rw [execute_succ] at h
    have ⟨c, m₁, hs, h⟩ := bind_ok_iff.mp h
    have ⟨hn₁, hc⟩ := iteration_of_nil hr hn hs
    obtain ⟨hc, hr₁⟩ | ⟨hc, he⟩ := hc
    case inl => subst hc; exact hi hr₁ hn₁ h
    case inr => subst hc; cases h; exact ⟨hn₁, .inr he⟩

-- The second part of a run, which is left out when the first part has ended the program.
def resume (sys : System D R) (b : Nat) : Exec D R Unit :=
  get >>= fun m => if m.nemu_state.state = NEMU_RUNNING then sys.execute b else pure ()

theorem resume_of_running (hr : m.nemu_state.state = NEMU_RUNNING) : resume sys b m = sys.execute b m := by
  rw [resume, EState.get_bind, if_pos hr]

theorem resume_of_ended (he : m.Ended) : resume sys b m = .ok () m := by
  rw [resume, EState.get_bind, if_neg he.not_running]
  rfl

-- The loop with `a + b` iterations is the loop with `a` iterations, continued while NEMU is running.
theorem execute_add (hr : m.nemu_state.state = NEMU_RUNNING) (hn : m.events = []) :
    sys.execute (a + b) m = (sys.execute a >>= fun _ => resume sys b) m := by
  induction a generalizing m
  case zero => rw [Nat.zero_add, ← resume_of_running hr]; rfl
  case succ a hi =>
    rw [Nat.add_right_comm, execute_succ]
    cases hs : sys.iteration m
    case error e m₁ =>
      have ha : sys.execute (a + 1) m = .error e m₁ := bind_of_error hs
      rw [bind_of_error hs, bind_of_error ha]
    case ok c m₁ =>
      have ha : sys.execute (a + 1) m = (if c then sys.execute a else pure ()) m₁ := bind_of_ok hs
      have ⟨hn₁, hc⟩ := iteration_of_nil hr hn hs
      rw [bind_of_ok hs, EState.bind_congr ha]
      obtain ⟨hc, hr₁⟩ | ⟨hc, he⟩ := hc
      case inl => subst hc; exact hi hr₁ hn₁
      case inr => subst hc; exact (resume_of_ended he).symm

theorem cpu_exec_of_ended {n : BitVec 64} (h : m.Ended) : sys.cpu_exec n m = .ok () m := by
  rw [System.cpu_exec, EState.get_bind]
  simp only [Machine.Ended, List.mem_cons, List.not_mem_nil, or_false] at h
  obtain h | h | h := h <;> rw [h] <;> rfl

theorem cpu_exec_of_not_ended {n : BitVec 64} (h : ¬m.Ended) :
    sys.cpu_exec n m = (sys.execute n.toNat >>= fun _ => settle) (running m) := by
  rw [System.cpu_exec, EState.get_bind]
  simp only [Machine.Ended, List.mem_cons, List.not_mem_nil, or_false, not_or] at h
  cases hs : m.nemu_state.state
  case NEMU_END => exact absurd hs h.left
  case NEMU_ABORT => exact absurd hs h.right.left
  case NEMU_QUIT => exact absurd hs h.right.right
  case NEMU_RUNNING => rfl
  case NEMU_STOP => rfl

theorem settle_of_running (hr : m.nemu_state.state = NEMU_RUNNING) :
    settle m = .ok () { m with nemu_state.state := NEMU_STOP } := by
  rw [settle, EState.get_bind, if_pos hr]
  rfl

theorem running_stopped (hr : m.nemu_state.state = NEMU_RUNNING) :
    running { m with nemu_state.state := NEMU_STOP } = m := by
  rw [running, ← hr]

theorem settle_of_ended (he : m.Ended) : settle m = .ok () m := by
  rw [settle, EState.get_bind, if_neg he.not_running]
  rfl

-- Running `a` and then `b` instructions is running `a + b` instructions.
theorem cpu_exec_add (sys : System D R) (m : Machine D R) (a b : BitVec 64) (hab : a.toNat + b.toNat < 2 ^ 64)
    (hn : m.events = []) : (do sys.cpu_exec a; sys.cpu_exec b) m = sys.cpu_exec (a + b) m := by
  by_cases he : m.Ended
  case pos => rw [bind_of_ok (cpu_exec_of_ended he), cpu_exec_of_ended he, cpu_exec_of_ended he]
  case neg =>
    have hab : (a + b).toNat = a.toNat + b.toNat := by
      rw [BitVec.toNat_add]
      exact Nat.mod_eq_of_lt hab
    have hx : sys.execute (a.toNat + b.toNat) (running m) = _ := execute_add rfl hn
    rw [EState.bind_congr (cpu_exec_of_not_ended he), cpu_exec_of_not_ended he, hab, EState.bind_congr hx]
    cases ha : sys.execute a.toNat (running m)
    case error e m' =>
      have h₁ : (sys.execute a.toNat >>= fun _ => settle) (running m) = .error e m' := bind_of_error ha
      have h₂ : (sys.execute a.toNat >>= fun _ => resume sys b.toNat) (running m) = .error e m' := bind_of_error ha
      rw [bind_of_error h₁, bind_of_error h₂]
    case ok u m' =>
      have h₁ : (sys.execute a.toNat >>= fun _ => settle) (running m) = settle m' := bind_of_ok ha
      have h₂ : (sys.execute a.toNat >>= fun _ => resume sys b.toNat) (running m) = resume sys b.toNat m' :=
        bind_of_ok ha
      rw [EState.bind_congr h₁, EState.bind_congr h₂]
      cases (execute_of_nil (m := running m) rfl hn ha).right
      case inl hr =>
        rw [bind_of_ok (settle_of_running hr), cpu_exec_of_not_ended (by simp [Machine.Ended]), running_stopped hr]
        exact (EState.bind_congr (resume_of_running hr)).symm
      case inr he =>
        rw [bind_of_ok (settle_of_ended he), cpu_exec_of_ended he, bind_of_ok (resume_of_ended he),
            settle_of_ended he]

-- `ebreak` at the reset vector, with device input but no regions, and without a reference.

def trapSystem : System Unit Unit where
  toEnv                   := { riscv32 with DEVICE := true, pos := Config.pos_default, fits := Config.fits_default }
  HAS_KEYBOARD            := false
  keymap                  := fun _ => 0
  key_enqueue             := fun _ s => .ok s
  ref_difftest_exec       := id
  ref_difftest_regcpy_dut := fun _ => ⟨fun _ => 0, 0⟩
  ref_difftest_regcpy_ref := fun _ => id

def trapMachine : Machine Unit Unit where
  host             := fun a => if a = 0 then 0x73 else if a = 2 then 0x10 else 0
  pc               := 0x80000000
  is_skip_ref      := false
  skip_dut_nr_inst := 0
  device           := ()
  gpr              := fun _ => 0
  nemu_state       := ⟨NEMU_STOP, 0, 0⟩
  g_nr_guest_inst  := 0
  ref              := ()
  events           := []

theorem cpu_exec_add_trap : (do trapSystem.cpu_exec 1; trapSystem.cpu_exec 2) trapMachine =
    trapSystem.cpu_exec (1 + 2) trapMachine :=
  cpu_exec_add trapSystem trapMachine 1 2 (by decide) rfl

end Compose
end Nemu
