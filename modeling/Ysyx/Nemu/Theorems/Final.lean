import Ysyx.Nemu.Theorems.Cpu

-- The end of a program is final: no further instruction is executed, and its exit status stays.

namespace Nemu

variable {D R : Type} {sys : System D R} {m m' m₀ : Machine D R} {c c' : Control} {s s' s'' : Control × Machine D R}
variable {l : Label} {ls ls' : List Label} {pc npc : Word} {n : Nat}

open EState (bind_ok_iff)

section Poll

variable {event : Event} {events : List Event}

theorem send_key_ok {k : Byte} {d : Bool} (h : sys.send_key k d m = .ok () m') : m'.nemu_state = m.nemu_state := by
  rw [System.send_key, EState.get_bind] at h
  split at h
  case isTrue =>
    cases hk : sys.key_enqueue (sys.keymap k ||| if d then System.KEYDOWN_MASK else 0) m.toState
    case ok => simp only [hk] at h; cases h; rfl
    case error => simp only [hk] at h; cases h
  case isFalse => cases h; rfl

-- An event leaves the state of NEMU alone unless the window is closed.
theorem handle_ok (h : sys.handle event m = .ok () m') : m'.nemu_state = m.nemu_state ∨
    event = .quit ∧ m'.nemu_state = { m.nemu_state with state := NEMU_QUIT } := by
  cases event
  case quit => cases h; exact .inr ⟨rfl, rfl⟩
  case key k d =>
    rw [System.handle] at h
    split at h
    case isTrue => exact .inl (send_key_ok h)
    case isFalse => cases h; exact .inl rfl
  case other => cases h; exact .inl rfl

theorem forM_handle_ok (h : events.forM sys.handle m = .ok () m') : m'.nemu_state = m.nemu_state ∨
    .quit ∈ events ∧ m'.nemu_state = { m.nemu_state with state := NEMU_QUIT } := by
  induction events generalizing m
  case nil => cases h; exact .inl rfl
  case cons event events hi =>
    have ⟨_, m₁, he, h⟩ := bind_ok_iff.mp h
    obtain h₁ | ⟨h₁, h₂⟩ := handle_ok he
    case inl =>
      rw [← h₁]
      exact (hi h).imp_right fun ⟨hm, hq⟩ => ⟨List.mem_cons_of_mem _ hm, hq⟩
    case inr =>
      refine .inr ⟨h₁ ▸ List.mem_cons_self, ?_⟩
      obtain h | ⟨_, h⟩ := hi h <;> rw [h, h₂]

theorem poll_ok (h : sys.poll m = .ok () m') : m'.nemu_state = m.nemu_state ∨
    .quit ∈ polled sys m ∧ m'.nemu_state = { m.nemu_state with state := NEMU_QUIT } := by
  rw [System.poll] at h
  split at h
  case isTrue hd =>
    rw [System.device_update, EState.get_bind] at h
    obtain ⟨_, m₁, hs, h⟩ := bind_ok_iff.mp h
    cases hs
    rw [polled, if_pos hd]
    exact forM_handle_ok (m := { m with events := m.events.tail }) h
  case isFalse => cases h; exact .inl rfl

end Poll

theorem ended_of_state (h : m'.nemu_state.state = m.nemu_state.state) (he : m.Ended) : m'.Ended := by
  rw [Machine.Ended, h]
  exact he

theorem ended_of_quit (h : m.nemu_state.state = NEMU_QUIT) : m.Ended := by
  simp [Machine.Ended, h]

-- What is known of the state of NEMU at a point of a run.
def Reached : Control → Machine D R → List Label → System D R → Prop
  | .loop (_ + 1), m, ls, _ => m.nemu_state.state = NEMU_RUNNING ∨
    m.nemu_state.state = NEMU_QUIT ∧ ∃ ls₀ events, ls = ls₀ ++ [.poll events] ∧ .quit ∈ events
  | .executed _ _, m, _, sys => m.nemu_state.state = NEMU_RUNNING ∨ m.nemu_state.state = NEMU_QUIT ∨
    Trapped sys.toConfig m
  | .compared _, m, _, _ => m.nemu_state.state = NEMU_RUNNING ∨ m.Ended
  | _, _, _, _ => True

-- One step, by the point that it leads to.
theorem Reached.step (h : Reached s.fst s.snd ls sys) (hs : Step sys s l s') :
    Reached s'.fst s'.snd (ls ++ [l]) sys := by
  cases hs
  case refuse => trivial
  case start m n he =>
    cases n.toNat
    case zero => trivial
    case succ => exact .inl rfl
  case instr m m' n he =>
    obtain hn | ht := (exec_once_ok he).state
    case inl =>
      have hn : m'.nemu_state.state = m.nemu_state.state := congrArg NEMUState.state hn
      exact h.imp hn.trans fun ⟨hq, _⟩ => .inl (hn.trans hq)
    case inr => exact .inr (.inr ⟨ht.state, ht.skip⟩)
  case compare m m' n pc ht =>
    obtain hn | ha := (trace_ok ht).right
    case inl =>
      have hn : m'.nemu_state.state = m.nemu_state.state := congrArg NEMUState.state hn
      obtain hr | hq | ht := h
      case inl => exact .inl (hn.trans hr)
      case inr.inl => exact .inr (ended_of_state hn (ended_of_quit hq))
      case inr.inr => exact .inr (ended_of_state hn ht.ended)
    case inr => exact .inr (by simp [Machine.Ended, ha])
  case leave => trivial
  case poll m m' n hr hp =>
    cases n
    case zero => trivial
    case succ n =>
      obtain hn | ⟨hq, hn⟩ := poll_ok hp
      case inl => exact .inl (hn ▸ hr)
      case inr => exact .inr ⟨hn ▸ rfl, ls, _, rfl, hq⟩
  case settle => trivial
  case quit => trivial

theorem Run.reached (h : Run sys (.prompt, m₀) ls s) : Reached s.fst s.snd ls sys := by
  induction h
  case nil => trivial
  case snoc hs hi => exact hi.step hs

-- The program has ended, and what is left of the iteration does not change that.
def Settled (sys : System D R) : Control → Machine D R → Prop
  | .loop (_ + 1), _ => False
  | .executed .., m  => Trapped sys.toConfig m
  | _, m             => m.Ended

theorem Reached.settled (h : Reached c m ls sys) (he : m.Ended)
    (hq : m.nemu_state.state = NEMU_QUIT → ¬c.Busy) : Settled sys c m := by
  cases c
  case prompt => exact he
  case loop n =>
    cases n
    case zero => exact he
    case succ =>
      cases h
      case inl hr => exact absurd hr he.not_running
      case inr h => exact absurd trivial (hq h.left)
  case executed =>
    obtain hr | h | ht := h
    case inl => exact absurd hr he.not_running
    case inr.inl => exact absurd trivial (hq h)
    case inr.inr => exact ht
  case compared => exact he
  case exit => exact he

-- One step after the end of the program.
theorem Settled.step (h : Settled sys s.fst s.snd) (hs : Step sys s l s') :
    Settled sys s'.fst s'.snd ∧ l ≠ .instr ∧ (s'.snd.nemu_state = s.snd.nemu_state ∨
      l = .quit ∧ s'.snd.nemu_state = { s.snd.nemu_state with state := NEMU_QUIT }) := by
  cases hs
  case refuse => exact ⟨h, nofun, .inl rfl⟩
  case start he => exact absurd h he
  case instr => exact h.elim
  case compare ht =>
    have hn := trace_of_trapped h ht
    exact ⟨ended_of_state (congrArg NEMUState.state hn) h.ended, nofun, .inl hn⟩
  case leave => exact ⟨h, nofun, .inl rfl⟩
  case poll hr _ => exact absurd hr (Machine.Ended.not_running h)
  case settle m m' hm =>
    rw [settle_of_ended h] at hm
    cases hm
    exact ⟨h, nofun, .inl rfl⟩
  case quit hm =>
    cases hm
    exact ⟨ended_of_quit rfl, nofun, .inr ⟨rfl, rfl⟩⟩

-- A run after the end of the program.
structure Over (m : Machine D R) (ls : List Label) (m' : Machine D R) : Prop where
  instr    : .instr ∉ ls
  halt_pc  : m'.nemu_state.halt_pc = m.nemu_state.halt_pc
  halt_ret : m'.nemu_state.halt_ret = m.nemu_state.halt_ret
  state    : m'.nemu_state.state = m.nemu_state.state ∨ .quit ∈ ls ∧ m'.nemu_state.state = NEMU_QUIT
  status   : .quit ∉ ls → is_exit_status_bad m'.nemu_state = is_exit_status_bad m.nemu_state

theorem Settled.run (h : Settled sys s.fst s.snd) (hr : Run sys s ls s') :
    Settled sys s'.fst s'.snd ∧ Over s.snd ls s'.snd := by
  induction hr
  case nil => exact ⟨h, nofun, rfl, rfl, .inl rfl, fun _ => rfl⟩
  case snoc s' s'' ls l _ hs hi =>
    have ⟨hi, ho⟩ := hi
    have ⟨hi, hl, hn⟩ := hi.step hs
    refine ⟨hi, ?_⟩
    have hm : .instr ∉ ls ++ [l] := by simpa using ⟨ho.instr, hl.symm⟩
    obtain hn | ⟨hq, hn⟩ := hn
    case inl =>
      refine ⟨hm, hn ▸ ho.halt_pc, hn ▸ ho.halt_ret, ?_, fun hq => ?_⟩
      case refine_1 => exact hn ▸ ho.state.imp_right fun ⟨hq, hs⟩ => ⟨List.mem_append_left _ hq, hs⟩
      case refine_2 => exact hn ▸ ho.status fun h => hq (List.mem_append_left _ h)
    case inr =>
      have hq : .quit ∈ ls ++ [l] := by simp [hq]
      exact ⟨hm, hn ▸ ho.halt_pc, hn ▸ ho.halt_ret, .inr ⟨hq, hn ▸ rfl⟩, fun h => absurd hq h⟩

section Calls

theorem Run.trans (h : Run sys s ls s') (h' : Run sys s' ls' s'') : Run sys s (ls ++ ls') s'' := by
  induction h'
  case nil => simpa using h
  case snoc hs hi => exact List.append_assoc .. ▸ hi.snoc hs

theorem Run.single (h : Step sys s l s') : Run sys s [l] s' :=
  Run.nil.snoc h

theorem run_of_execute (h : sys.execute n m = .ok () m') : ∃ ls, Run sys (.loop n, m) ls (.loop 0, m') := by
  induction n generalizing m
  case zero => cases h; exact ⟨[], .nil⟩
  case succ n hi =>
    rw [execute_succ] at h
    have ⟨b, m₃, hs, h⟩ := bind_ok_iff.mp h
    have ⟨m₁, m₂, he, ht, hc⟩ := iteration_ok hs
    have hr : Run sys (.loop (n + 1), m) [.instr, .compare] (.compared n, m₂) :=
      (Run.single (.instr he)).snoc (.compare ht)
    obtain ⟨hn, hb, hm⟩ | ⟨hn, hb, hp⟩ := hc
    case inl =>
      subst hb hm
      cases h
      exact ⟨_, hr.snoc (.leave hn)⟩
    case inr =>
      subst hb
      have ⟨ls, hr'⟩ := hi h
      exact ⟨_, (hr.snoc (.poll hn hp)).trans hr'⟩

-- A call of `cpu_exec` is a run from the prompt to the prompt.
theorem run_of_cpu_exec {k : BitVec 64} (h : sys.cpu_exec k m = .ok () m') :
    ∃ ls, Run sys (.prompt, m) ls (.prompt, m') := by
  by_cases he : m.Ended
  case pos =>
    rw [cpu_exec_of_ended he] at h
    cases h
    exact ⟨_, .single (.refuse (n := k) he)⟩
  case neg =>
    rw [cpu_exec_of_not_ended he] at h
    have ⟨_, m₁, hx, hm⟩ := bind_ok_iff.mp h
    have ⟨ls, hr⟩ := run_of_execute hx
    exact ⟨_, ((Run.single (.start he)).trans hr).snoc (.settle hm)⟩

end Calls

-- Instructions are executed only while NEMU is running or directly after an update that has seen the window closed.
-- The end of the program is final but for the command `q`, in any run and from any of its points, except while an
-- iteration that follows such an update is in progress.
theorem end_is_final (sys : System D R) (m₀ : Machine D R) (ls : List Label) (c : Control) (m : Machine D R)
    (h : Run sys (.prompt, m₀) ls (c, m)) :
    (∀ s', Step sys (c, m) .instr s' → m.nemu_state.state = NEMU_RUNNING ∨
      ∃ ls₀ events, ls = ls₀ ++ [.poll events] ∧ .quit ∈ events) ∧
    (m.Ended → (m.nemu_state.state = NEMU_QUIT → ¬c.Busy) →
      ∀ ls' c' m', Run sys (c, m) ls' (c', m') → Over m ls' m') := by
  have hr := h.reached
  refine ⟨fun s' hs => ?_, fun he hq ls' c' m' hr' => ((hr.settled he hq).run hr').right⟩
  cases hs
  exact hr.imp_right And.right

-- The machine behind the `ebreak`.
def trapped : Machine Unit Unit :=
  { trapMachine with
    pc              := 0x80000004
    gpr             := Function.update trapMachine.gpr 0 0
    nemu_state      := ⟨NEMU_END, 0x80000000, 0⟩
    g_nr_guest_inst := 1 }

theorem cpu_exec_trapMachine : trapSystem.cpu_exec 1 trapMachine = .ok () trapped := (rfl)

theorem trapped_ended : trapped.Ended := by
  simp [Machine.Ended, trapped]

theorem end_is_final_trap : ∃ ls, Run trapSystem (.prompt, trapMachine) ls (.prompt, trapped) ∧
    ∀ ls' c' m', Run trapSystem (.prompt, trapped) ls' (c', m') → Over trapped ls' m' := by
  have ⟨ls, h⟩ := run_of_cpu_exec cpu_exec_trapMachine
  exact ⟨ls, h, (end_is_final trapSystem trapMachine ls .prompt trapped h).right trapped_ended nofun⟩

-- The command `q` changes the state after the program has ended.
theorem end_is_not_final : ¬∀ (sys : System Unit Unit) (m₀ : Machine Unit Unit) (ls : List Label) (c : Control)
    (m : Machine Unit Unit), m₀.nemu_state.state = NEMU_STOP → Run sys (.prompt, m₀) ls (c, m) → m.Ended →
    ∀ ls' c' m', Run sys (c, m) ls' (c', m') →
      .instr ∉ ls' ∧ m'.nemu_state = m.nemu_state := by
  intro h
  have ⟨ls, hr⟩ := run_of_cpu_exec cpu_exec_trapMachine
  have hq : Run trapSystem (.prompt, trapped) [.quit] (.exit, { trapped with nemu_state.state := NEMU_QUIT }) :=
    .single (.quit rfl)
  have hs := (h trapSystem trapMachine ls .prompt trapped rfl hr trapped_ended _ _ _ hq).right
  exact absurd (congrArg NEMUState.state hs) (by decide)

end Nemu
