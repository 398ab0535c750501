import Ysyx.Monads.EState
import Ysyx.Nemu.Sdb
import Ysyx.Nemu.Theorems.Cpu

-- When the examination of memory in the debugger is an observation.

namespace Nemu

variable {D R : Type} {sys : System D R} {m m' : Machine D R} {args : Option Text} {str : Text} {lines : List Text}
variable {start addr : Word} {i n : Nat}

open EState (bind_of_ok bind_of_error)

-- The arguments are rejected, or all words begin in the physical memory.
def harmless (env : Env D) (args : Option Text) : Bool :=
  match examined args with
  | .error _       => true
  | .ok (n, start) => (List.range n.toNat).all fun i => env.in_pmem (start + BitVec.ofNat 32 (i * 4))

-- A line with such a command.
def observation (env : Env D) (str : Text) : Bool :=
  match tokens str with
  | some (cmd, args) => cmd == [0x78] && harmless env args
  | none             => false

section Observe

theorem access_in_pmem (h : sys.in_pmem addr = true) : ∃ v, access (sys.vaddr_read addr 4) m = .ok v m := by
  have ⟨v, hv⟩ : ∃ v, sys.paddr_read addr 4 m.toState = .ok v m.toState :=
    Env.paddr_read_in_pmem (.inr (.inr rfl)) h
  exact ⟨v, by simp only [access, Env.vaddr_read, hv]⟩

theorem examine_succ : sys.examine start i (n + 1) m =
    (access (sys.vaddr_read (start + BitVec.ofNat 32 (i * 4)) 4) >>= fun _ => sys.examine start (i + 1) n) m :=
  EState.discard_bind

-- A word in the physical memory is read and nothing else happens.
theorem examine_in_pmem (h : sys.in_pmem (start + BitVec.ofNat 32 (i * 4)) = true) :
    sys.examine start i (n + 1) m = sys.examine start (i + 1) n m := by
  have ⟨_, hv⟩ := access_in_pmem (m := m) h
  rw [examine_succ, bind_of_ok hv]

theorem examine_of_in_pmem (h : ∀ j < n, sys.in_pmem (start + BitVec.ofNat 32 ((i + j) * 4)) = true) :
    sys.examine start i n m = .ok () m := by
  induction n generalizing i
  case zero => rfl
  case succ n hi =>
    rw [examine_in_pmem (by simpa using h 0 (Nat.zero_lt_succ n))]
    refine hi fun j hj => ?_
    rw [Nat.add_assoc, Nat.add_comm 1 j]
    exact h (j + 1) (Nat.succ_lt_succ hj)

-- The machine behind `difftest_skip_ref`.
def Machine.skipped (cfg : Config) (m : Machine D R) : Machine D R :=
  { m with toState := Nemu.skipped cfg m.toState }

-- A word of a device calls the callback of the device when the flags have been set, and nothing else happens.
theorem examine_selected {map : IOMap D} (hp : sys.in_pmem (start + BitVec.ofNat 32 (i * 4)) = false)
    (hs : sys.selected (start + BitVec.ofNat 32 (i * 4)) = some map) : sys.examine start i (n + 1) m =
      (access (invoke_callback map (start + BitVec.ofNat 32 (i * 4) - map.low) 4 false) >>= fun _ =>
        sys.examine start (i + 1) n) (m.skipped sys.toConfig) := by
  have hr := Env.paddr_read_map (s := m.toState) hp hs
  rw [examine_succ]
  cases invoke_callback_cases map (start + BitVec.ofNat 32 (i * 4) - map.low) 4 false (m.skipped sys.toConfig).toState
  case inl h =>
    have ⟨s', h⟩ := h
    have hw : sys.vaddr_read (start + BitVec.ofNat 32 (i * 4)) 4 m.toState = .ok _ s' :=
      hr.trans <| (bind_of_ok h).trans host_read_four
    rw [bind_of_ok (access_eq_ok hw), bind_of_ok (access_eq_ok h)]
    rfl
  case inr h =>
    have ⟨message, h⟩ := h
    have hw : sys.vaddr_read (start + BitVec.ofNat 32 (i * 4)) 4 m.toState = .error (.device message) _ :=
      hr.trans <| bind_of_error h
    rw [bind_of_error (access_eq_error hw), bind_of_error (access_eq_error h)]
    rfl

theorem skipped_of_difftest (hd : sys.DIFFTEST = true) :
    m.skipped sys.toConfig = { m with is_skip_ref := true, skip_dut_nr_inst := 0 } := by
  rw [Machine.skipped, Nemu.skipped, if_pos hd]

theorem examine_not_in_pmem (hd : sys.DIFFTEST = true)
    (hp : sys.in_pmem (start + BitVec.ofNat 32 (i * 4)) = false) (m₀ : Machine D R) :
    ¬∀ m : Machine D R, sys.examine start i (n + 1) m = .ok () m := by
  intro h
  cases hs : sys.selected (start + BitVec.ofNat 32 (i * 4))
  case none =>
    have ⟨e, _, he⟩ : OutOfBound (sys.paddr_read (start + BitVec.ofNat 32 (i * 4)) 4 m₀.toState) m₀.toState :=
      Env.paddr_read_unselected (.inr (.inr rfl)) hp hs
    have ha : access (sys.vaddr_read (start + BitVec.ofNat 32 (i * 4)) 4) m₀ = .error (.stop e) m₀ := by
      simp only [access, Env.vaddr_read, he]
    have hm := h m₀
    rw [examine_succ, bind_of_error ha] at hm
    cases hm
  case some map =>
    -- The result does not depend on the flags, which the machine keeps.
    let m₁ : Machine D R := { m₀ with is_skip_ref := !m₀.is_skip_ref }
    have hm : (.ok () m₁ : EStateM.Result Fault (Machine D R) Unit) = .ok () m₀ := by
      rw [← h m₁, ← h m₀, examine_selected hp hs, examine_selected hp hs, skipped_of_difftest hd,
        skipped_of_difftest hd]
    have hb : (!m₀.is_skip_ref) = m₀.is_skip_ref := congrArg (·.is_skip_ref) (EStateM.Result.ok.inj hm).right
    exact absurd hb (by cases m₀.is_skip_ref <;> simp)

theorem in_pmem_of_examine (hd : sys.DIFFTEST = true) (m₀ : Machine D R)
    (h : ∀ m : Machine D R, sys.examine start i n m = .ok () m) :
    ∀ j < n, sys.in_pmem (start + BitVec.ofNat 32 ((i + j) * 4)) = true := by
  induction n generalizing i
  case zero => nofun
  case succ n hi =>
    cases hp : sys.in_pmem (start + BitVec.ofNat 32 (i * 4))
    case false => exact absurd h (examine_not_in_pmem hd hp m₀)
    case true =>
      have h' := hi fun m => examine_in_pmem hp ▸ h m
      intro j hj
      cases j
      case zero => exact hp
      case succ j =>
        rw [← Nat.add_assoc, Nat.add_right_comm]
        exact h' j (Nat.lt_of_succ_lt_succ hj)

theorem examine_add {j : Nat} : sys.examine start i (j + n) m =
    (sys.examine start i j >>= fun _ => sys.examine start (i + j) n) m := by
  induction j generalizing i m
  case zero =>
    rw [Nat.zero_add]
    rfl
  case succ j hi =>
    have hs : i + 1 + j = i + (j + 1) := by omega
    rw [Nat.add_right_comm, examine_succ]
    cases hr : access (sys.vaddr_read (start + BitVec.ofNat 32 (i * 4)) 4) m
    case ok v m' =>
      have he : sys.examine start i (j + 1) m = sys.examine start (i + 1) j m' := by rw [examine_succ, bind_of_ok hr]
      rw [bind_of_ok hr, hi, hs]
      exact (EState.bind_congr he).symm
    case error e m' =>
      have he : sys.examine start i (j + 1) m = .error e m' := by rw [examine_succ, bind_of_error hr]
      rw [bind_of_error hr, bind_of_error he]

-- The words that have been reached are examined first.
theorem examine_of_reached {j : Nat} (h : sys.examine start i j m = .ok () m') :
    sys.examine start i (j + n) m = sys.examine start (i + j) n m' := by
  rw [examine_add, bind_of_ok h]

-- A word in no region ends the program.
theorem examine_unselected (hp : sys.in_pmem (start + BitVec.ofNat 32 (i * 4)) = false)
    (hs : sys.selected (start + BitVec.ofNat 32 (i * 4)) = none) :
    ∃ e : Stop, e.IsOutOfBound ∧ sys.examine start i (n + 1) m = .error (.stop e) m := by
  have ⟨e, ho, he⟩ : OutOfBound (sys.paddr_read (start + BitVec.ofNat 32 (i * 4)) 4 m.toState) m.toState :=
    Env.paddr_read_unselected (.inr (.inr rfl)) hp hs
  have hw : sys.vaddr_read (start + BitVec.ofNat 32 (i * 4)) 4 m.toState = .error e m.toState := he
  exact ⟨e, ho, by rw [examine_succ, bind_of_error (access_eq_error hw)]⟩

-- The devices leave the flags of differential testing alone.
def Unflagged (env : Env D) : Prop :=
  ∀ addr, ∀ map ∈ env.selected addr, ∀ c ∈ map.callback, ∀ offset len w s s', c offset len w s = .ok s' →
    s'.is_skip_ref = s.is_skip_ref ∧ s'.skip_dut_nr_inst = s.skip_dut_nr_inst

-- The next step of differential testing does not compare.
def Machine.Skips (m : Machine D R) : Prop :=
  m.is_skip_ref = true ∧ m.skip_dut_nr_inst = 0

theorem skips_invoke_callback {map : IOMap D} {offset : Word} (hu : Unflagged sys.toEnv)
    (hs : sys.selected addr = some map) (hm : m.Skips)
    (h : access (invoke_callback map offset 4 false) m = .ok () m') : m'.Skips := by
  cases hc : map.callback
  case none =>
    rw [access_eq_ok (invoke_callback_none hc)] at h
    cases h
    exact hm
  case some c =>
    have hi : invoke_callback map offset 4 false m.toState = _ := invoke_callback_some hc
    cases hr : c offset 4 false m.toState
    case error =>
      rw [hr] at hi
      rw [access_eq_error hi] at h
      cases h
    case ok s' =>
      rw [hr] at hi
      rw [access_eq_ok hi] at h
      cases h
      have ⟨hr, hd⟩ := hu addr map hs c hc offset 4 false _ _ hr
      exact ⟨hr.trans hm.left, hd.trans hm.right⟩

-- Once a word of a device has been examined, the flags stay set.
theorem skips_examine (hd : sys.DIFFTEST = true) (hu : Unflagged sys.toEnv) (h : sys.examine start i n m = .ok () m')
    (hm : m.Skips ∨ ∃ j < n, sys.in_pmem (start + BitVec.ofNat 32 ((i + j) * 4)) = false) : m'.Skips := by
  induction n generalizing i m
  case zero =>
    cases h
    exact hm.resolve_right nofun
  case succ n hi =>
    cases hp : sys.in_pmem (start + BitVec.ofNat 32 (i * 4))
    case true =>
      rw [examine_in_pmem hp] at h
      refine hi h <| hm.imp_right fun ⟨j, hj, hf⟩ => ?_
      cases j
      case zero => rw [Nat.add_zero, hp] at hf; cases hf
      case succ j => exact ⟨j, by omega, by rwa [show i + 1 + j = i + (j + 1) by omega]⟩
    case false =>
      cases hs : sys.selected (start + BitVec.ofNat 32 (i * 4))
      case none =>
        have ⟨e, _, he⟩ := examine_unselected (n := n) (m := m) hp hs
        rw [he] at h
        cases h
      case some map =>
        rw [examine_selected hp hs, skipped_of_difftest hd] at h
        have ⟨_, m₁, h₁, h₂⟩ := EState.bind_ok_iff.mp h
        exact hi h₂ <| .inl <| skips_invoke_callback hu hs ⟨rfl, rfl⟩ h₁

end Observe

section Command

variable {k : BitVec 64}

theorem cmd_x_of_ok (h : examined args = .ok (k, start)) :
    sys.cmd_x args m = (sys.examine start 0 k.toNat >>= fun _ => pure 0) m := by
  rw [System.cmd_x, h]

theorem harmless_iff {env : Env D} (h : examined args = .ok (k, start)) : harmless env args = true ↔
    ∀ j < k.toNat, env.in_pmem (start + BitVec.ofNat 32 ((0 + j) * 4)) = true := by
  simp [harmless, h]

theorem cmd_x_of_harmless (h : harmless sys.toEnv args = true) : sys.cmd_x args m = .ok 0 m := by
  cases hx : examined args
  case error => rw [System.cmd_x, hx]; rfl
  case ok r =>
    rw [cmd_x_of_ok hx, bind_of_ok (examine_of_in_pmem ((harmless_iff hx).mp h))]
    rfl

theorem harmless_of_cmd_x (hd : sys.DIFFTEST = true) (m₀ : Machine D R) (h : ∀ m, sys.cmd_x args m = .ok 0 m) :
    harmless sys.toEnv args = true := by
  cases hx : examined args
  case error => simp [harmless, hx]
  case ok r =>
    refine (harmless_iff hx).mpr (in_pmem_of_examine hd m₀ fun m => ?_)
    have hm := h m
    rw [cmd_x_of_ok hx] at hm
    have ⟨_, _, he, hm⟩ := EState.bind_ok_iff.mp hm
    cases hm
    exact he

theorem cmd_x_unselected (hx : examined args = .ok (k, start)) {j : Nat} (hj : j < k.toNat)
    (hr : sys.examine start 0 j m = .ok () m') (hp : sys.in_pmem (start + BitVec.ofNat 32 (j * 4)) = false)
    (hs : sys.selected (start + BitVec.ofNat 32 (j * 4)) = none) :
    ∃ e : Stop, e.IsOutOfBound ∧ sys.cmd_x args m = .error (.stop e) m' := by
  have ⟨r, hn⟩ : ∃ r, k.toNat = j + (r + 1) := ⟨k.toNat - j - 1, by omega⟩
  have he : sys.examine start 0 k.toNat m = sys.examine start j (r + 1) m' := by
    rw [hn, examine_of_reached hr, Nat.zero_add]
  have ⟨e, ho, hm⟩ := examine_unselected (n := r) (m := m') hp hs
  exact ⟨e, ho, by rw [cmd_x_of_ok hx, bind_of_error (he.trans hm)]⟩

-- A word of a device is examined by a call of its callback.
theorem examine_device {map : IOMap D} {j : Nat} (hd : sys.DIFFTEST = true) (hr : sys.examine start 0 j m = .ok () m')
    (hp : sys.in_pmem (start + BitVec.ofNat 32 (j * 4)) = false)
    (hs : sys.selected (start + BitVec.ofNat 32 (j * 4)) = some map) : sys.examine start 0 (j + 1) m =
      access (invoke_callback map (start + BitVec.ofNat 32 (j * 4) - map.low) 4 false)
        { m' with is_skip_ref := true, skip_dut_nr_inst := 0 } := by
  rw [examine_of_reached hr, Nat.zero_add, examine_selected hp hs, skipped_of_difftest hd]
  cases hc : access (invoke_callback map (start + BitVec.ofNat 32 (j * 4) - map.low) 4 false)
    { m' with is_skip_ref := true, skip_dut_nr_inst := 0 }
  case ok => rw [bind_of_ok hc]; rfl
  case error => rw [bind_of_error hc]

theorem cmd_x_skips {j : Nat} {r : Int} (hd : sys.DIFFTEST = true) (hu : Unflagged sys.toEnv)
    (hx : examined args = .ok (k, start)) (hj : j < k.toNat)
    (hp : sys.in_pmem (start + BitVec.ofNat 32 (j * 4)) = false) (h : sys.cmd_x args m = .ok r m') : m'.Skips := by
  rw [cmd_x_of_ok hx] at h
  have ⟨_, m₁, h₁, h₂⟩ := EState.bind_ok_iff.mp h
  cases h₂
  exact skips_examine hd hu h₁ <| .inr ⟨j, hj, by rwa [Nat.zero_add]⟩

theorem mainloop_cons : sys.sdb_mainloop (str :: lines) m = match tokens str with
    | none => sys.sdb_mainloop lines m
    | some (cmd, args) =>
      (sys.handler cmd args >>= fun r => if r < 0 then pure () else sys.sdb_mainloop lines) m := by
  rw [System.sdb_mainloop]
  cases tokens str <;> rfl

theorem mainloop_of_observation (h : observation sys.toEnv str = true) :
    sys.sdb_mainloop (str :: lines) m = sys.sdb_mainloop lines m := by
  rw [observation] at h
  rw [mainloop_cons]
  split at h
  case h_1 cmd args ht =>
    have ⟨hc, hh⟩ : cmd = [0x78] ∧ harmless sys.toEnv args = true := by simpa using h
    have hx : sys.handler cmd args m = .ok 0 m := by
      subst hc
      exact cmd_x_of_harmless hh
    rw [ht]
    simp only
    rw [bind_of_ok hx]
    rfl
  case h_2 => cases h

-- Lines with such commands can be left out of a session.
theorem mainloop_filter :
    sys.sdb_mainloop (lines.filter fun str => !observation sys.toEnv str) m = sys.sdb_mainloop lines m := by
  induction lines generalizing m
  case nil => rfl
  case cons str lines hi =>
    cases ho : observation sys.toEnv str
    case true => rw [List.filter_cons_of_neg (by simp [ho]), hi, mainloop_of_observation ho]
    case false =>
      rw [List.filter_cons_of_pos (by simp [ho]), mainloop_cons, mainloop_cons]
      split
      case h_1 => exact hi
      case h_2 cmd args ht =>
        cases hr : sys.handler cmd args m
        case error => rw [bind_of_error hr, bind_of_error hr]
        case ok r m' =>
          rw [bind_of_ok hr, bind_of_ok hr]
          split
          case isTrue => rfl
          case isFalse => exact hi

-- With differential testing the command `x` is an observation exactly if its arguments are rejected or all words
-- begin in the physical memory; such commands can be left out of any session. A word of a device that is reached calls
-- the device with the flags set, and they stay set. A word in no region that is reached ends the program.
theorem examination_observes (sys : System D R) (args : Option Text) :
    (harmless sys.toEnv args = true → ∀ m : Machine D R, sys.cmd_x args m = .ok 0 m) ∧
    (sys.DIFFTEST = true → ∀ _ : Machine D R, (∀ m : Machine D R, sys.cmd_x args m = .ok 0 m) →
      harmless sys.toEnv args = true) ∧
    (∀ (n : BitVec 64) (start : Word) (j : Nat) (m : Machine D R), examined args = .ok (n, start) → j < n.toNat →
      ((∀ i < j, sys.in_pmem (start + BitVec.ofNat 32 (i * 4)) = true) → sys.examine start 0 j m = .ok () m) ∧
      ∀ m', sys.examine start 0 j m = .ok () m' → sys.in_pmem (start + BitVec.ofNat 32 (j * 4)) = false →
        (sys.selected (start + BitVec.ofNat 32 (j * 4)) = none →
          ∃ e : Stop, e.IsOutOfBound ∧ sys.cmd_x args m = .error (.stop e) m') ∧
        (∀ map ∈ sys.selected (start + BitVec.ofNat 32 (j * 4)), sys.DIFFTEST = true →
          sys.examine start 0 (j + 1) m =
            access (invoke_callback map (start + BitVec.ofNat 32 (j * 4) - map.low) 4 false)
              { m' with is_skip_ref := true, skip_dut_nr_inst := 0 }) ∧
        (sys.DIFFTEST = true → Unflagged sys.toEnv → ∀ m'', sys.cmd_x args m = .ok 0 m'' → m''.Skips)) ∧
    (∀ (lines : List Text) (m : Machine D R),
      sys.sdb_mainloop (lines.filter fun str => !observation sys.toEnv str) m = sys.sdb_mainloop lines m) := by
  refine ⟨fun h _ => cmd_x_of_harmless h, fun hd m₀ h => harmless_of_cmd_x hd m₀ h, fun n start j m hx hj => ?words,
    fun _ _ => mainloop_filter⟩
  case words =>
    refine ⟨fun hb => examine_of_in_pmem (by simpa using hb), fun m' hr hp => ⟨?nowhere, ?device, ?flags⟩⟩
    case nowhere => exact cmd_x_unselected hx hj hr hp
    case device => exact fun map hs hd => examine_device hd hr hp hs
    case flags => exact fun hd hu m'' h => cmd_x_skips hd hu hx hj hp h

-- `1 0x80000000`
def atReset : Text :=
  [0x31, 0x20, 0x30, 0x78, 0x38, 0x30, 0x30, 0x30, 0x30, 0x30, 0x30, 0x30]

-- A system with differential testing and a device with one word of registers at `0xa0000100`.
def vgaSystem : System Unit Unit :=
  { trapSystem with
    DIFFTEST := true
    maps     := [{ name := "vgactl", low := 0xa0000100, high := 0xa0000107, space := 0, callback := none }] }

-- `1 0xa0000100`
def atVga : Text :=
  [0x31, 0x20, 0x30, 0x78, 0x61, 0x30, 0x30, 0x30, 0x30, 0x31, 0x30, 0x30]

theorem unflagged_vga : Unflagged vgaSystem.toEnv := by
  intro addr map hs c hc
  have hm : map ∈ vgaSystem.maps := List.mem_of_find?_eq_some (Env.device_of_selected hs).right
  rw [List.mem_singleton.mp hm] at hc
  cases hc

theorem examination_observes_reset : trapSystem.cmd_x (some atReset) trapMachine = .ok 0 trapMachine ∧
    ∃ m, vgaSystem.cmd_x (some atVga) trapMachine = .ok 0 m ∧ m.Skips := by
  have hw := ((examination_observes vgaSystem (some atVga)).right.right.left 1 0xa0000100 0 trapMachine rfl
    (by decide)).right trapMachine rfl rfl
  exact ⟨(examination_observes trapSystem (some atReset)).left (by decide) trapMachine,
    _, rfl, hw.right.right rfl unflagged_vga _ rfl⟩

theorem examination_not_observes : ¬∀ (sys : System Unit Unit) (args : Option Text) (m : Machine Unit Unit),
    sys.DEVICE = true → sys.DIFFTEST = true → sys.cmd_x args m = .ok 0 m := by
  intro h
  have hx := h vgaSystem (some atVga) trapMachine rfl rfl
  have hs : (vgaSystem.cmd_x (some atVga) trapMachine) = .ok 0 { trapMachine with is_skip_ref := true } := rfl
  rw [hs] at hx
  exact absurd (congrArg (·.is_skip_ref) (EStateM.Result.ok.inj hx).right) (by decide)

end Command
end Nemu
