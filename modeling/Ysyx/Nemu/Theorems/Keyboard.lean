import Ysyx.Nemu.Keyboard
import Ysyx.Nemu.Theorems.Final

-- The guest reads the codes of the keys in the order in which they have been sent.

namespace Nemu.Keyboard

open Keys (Queue)
open EState (bind_of_ok bind_ok_iff get_bind)

variable {R : Type} {sys : System Queue R} {SDL_SCANCODE : String → Byte} {port : Bool} {base : HostAddr}
variable {m m' m₀ : Machine Queue R} {ops : List Op} {op : Op} {values : List Word} {s : State Queue}
variable {scancode : Byte} {is_keydown : Bool} {v : Option Word} {e : Fault}

section Steps

-- A key is sent to the queue.
def Mapped (SDL_SCANCODE : String → Byte) (m : Machine Queue R) (scancode : Byte) : Prop :=
  m.nemu_state.state = NEMU_RUNNING ∧ keymap SDL_SCANCODE scancode ≠ 0

theorem send_key_of_mapped (h : Mapped SDL_SCANCODE m scancode) :
    (attach SDL_SCANCODE sys).send_key scancode is_keydown m =
      match key_enqueue (Keys.code (keymap SDL_SCANCODE scancode) is_keydown) m.toState with
      | .ok s          => .ok () { m with toState := s }
      | .error message => .error (.stop (.device message)) m := by
  have hc : (keymap SDL_SCANCODE scancode ||| if is_keydown then System.KEYDOWN_MASK else 0) =
    Keys.code (keymap SDL_SCANCODE scancode) is_keydown := rfl
  rw [System.send_key, get_bind, attach]
  refine (congrFun (if_pos h) m).trans ?_
  simp only [hc]
  cases key_enqueue (Keys.code (keymap SDL_SCANCODE scancode) is_keydown) m.toState <;> rfl

theorem send_key_of_not_mapped (h : ¬Mapped SDL_SCANCODE m scancode) :
    (attach SDL_SCANCODE sys).send_key scancode is_keydown m = .ok () m := by
  rw [System.send_key, get_bind, attach]
  exact congrFun (if_neg h) m

theorem key_enqueue_ok {key : Word} {s' : State Queue} (h : key_enqueue key s = .ok s') :
    s'.device.pending = s.device.pending ++ [key] := by
  rw [key_enqueue] at h
  split at h
  case isTrue hn => cases h; exact Queue.pending_put hn
  case isFalse => cases h

theorem key_enqueue_error {key : Word} {message : String} (h : key_enqueue key s = .error message) :
    message = "key queue overflow!" ∧ s.device.pending.length = 1023 := by
  rw [key_enqueue] at h
  split at h
  case isTrue => cases h
  case isFalse hn => cases h; exact ⟨rfl, Queue.full_iff.mp (not_not.mp hn)⟩

theorem i8042_handler_run (base : HostAddr) (s : State Queue) : ∃ q,
    i8042_data_io_handler base 0#32 4 false s = .ok { s with
      device := q, host := s.host.store base 4 (s.device.pending.headD NEMU_KEY_NONE) } ∧
      q.pending = s.device.pending.tail := by
  have ⟨q, hq, hp⟩ := Queue.take_eq s.device NEMU_KEY_NONE
  refine ⟨q, ?_, hp⟩
  have hz : ¬(0#32 : Word) ≠ 0 := by decide
  simp only [i8042_data_io_handler, key_dequeue, hq, Bool.false_eq_true, if_false, hz]

-- A read takes the first code out of the queue.
theorem read_run (sys : System Queue R) (SDL_SCANCODE : String → Byte) (port : Bool) (base : HostAddr)
    (m : Machine Queue R) : ∃ m', perform SDL_SCANCODE sys (region port base) .read m =
    .ok (some (m.device.pending.headD NEMU_KEY_NONE)) m' ∧
      m'.device.pending = m.device.pending.tail ∧ m'.nemu_state = m.nemu_state := by
  have ⟨q, hq, hp⟩ := i8042_handler_run base m.toState
  have hi : map_inside (region port base) (region port base).low = true := by
    cases port <;> rfl
  have hc : invoke_callback (region port base) 0#32 4 false m.toState = _ := invoke_callback_some rfl
  rw [hq] at hc
  have hr : map_read sys.toConfig (region port base).low 4 (some (region port base)) m.toState =
      .ok (m.device.pending.headD NEMU_KEY_NONE)
        { m.toState with device := q, host := m.host.store base 4 (m.device.pending.headD NEMU_KEY_NONE) } := by
    rw [map_read_eq (.inr (.inr rfl)) hi, BitVec.sub_self, bind_of_ok hc]
    have hb : (region port base).space + (0#32).setWidth 64 = base := BitVec.add_zero base
    rw [hb]
    exact congrArg (EStateM.Result.ok · _) (Memory.load32_store_same (by decide))
  refine ⟨{ m with toState := { m.toState with
    device := q, host := m.host.store base 4 (m.device.pending.headD NEMU_KEY_NONE) } }, ?_, hp, rfl⟩
  rw [perform]
  exact bind_of_ok (by rw [access, hr])

-- The keys that one operation sends.
theorem send_key_ok (h : (attach SDL_SCANCODE sys).send_key scancode is_keydown m = .ok () m') :
    m'.nemu_state = m.nemu_state ∧ m'.device.pending = m.device.pending ++
      if m.nemu_state.state = NEMU_RUNNING ∧ keymap SDL_SCANCODE scancode ≠ 0 then
        [Keys.code (keymap SDL_SCANCODE scancode) is_keydown] else [] := by
  by_cases hm : Mapped SDL_SCANCODE m scancode
  case pos =>
    rw [send_key_of_mapped hm] at h
    cases hk : key_enqueue (Keys.code (keymap SDL_SCANCODE scancode) is_keydown) m.toState
    case ok =>
      rw [hk] at h
      cases h
      exact ⟨rfl, (key_enqueue_ok hk).trans (congrArg _ (if_pos hm).symm)⟩
    case error => rw [hk] at h; cases h
  case neg =>
    rw [send_key_of_not_mapped hm] at h
    cases h
    exact ⟨rfl, ((congrArg _ (if_neg hm)).trans (List.append_nil _)).symm⟩

theorem send_key_error (h : (attach SDL_SCANCODE sys).send_key scancode is_keydown m = .error e m') :
    e = .stop (.device "key queue overflow!") ∧ m.device.pending.length = 1023 := by
  by_cases hm : Mapped SDL_SCANCODE m scancode
  case pos =>
    rw [send_key_of_mapped hm] at h
    cases hk : key_enqueue (Keys.code (keymap SDL_SCANCODE scancode) is_keydown) m.toState
    case ok => rw [hk] at h; cases h
    case error message =>
      rw [hk] at h
      cases h
      have ⟨hm, hl⟩ := key_enqueue_error hk
      exact ⟨by rw [hm], hl⟩
  case neg =>
    rw [send_key_of_not_mapped hm] at h
    cases h

end Steps

section Runs

-- The codes that have been sent are those that have been received and those that are pending.
structure Inv (SDL_SCANCODE : String → Byte) (m₀ m : Machine Queue R) (ops : List Op) (values : List Word) : Prop where
  state : (history SDL_SCANCODE m₀.nemu_state.state ops).fst = m.nemu_state.state
  codes : (history SDL_SCANCODE m₀.nemu_state.state ops).snd = received values ++ m.device.pending
  keys  : ∀ key ∈ m.device.pending, key ≠ NEMU_KEY_NONE

theorem history_append {state : RunState} :
    history SDL_SCANCODE state (ops ++ [op]) = record SDL_SCANCODE (history SDL_SCANCODE state ops) op := by
  rw [history, List.foldl_append]
  rfl

theorem received_append {v : Word} :
    received (values ++ [v]) = received values ++ if v = NEMU_KEY_NONE then [] else [v] := by
  rw [received, received, List.filter_append]
  congr 1
  by_cases h : v = NEMU_KEY_NONE <;> simp [h]

-- What a read receives is what it takes out of the queue.
theorem received_headD {keys : List Word} (h : ∀ key ∈ keys, key ≠ NEMU_KEY_NONE) :
    received (values ++ [keys.headD NEMU_KEY_NONE]) ++ keys.tail = received values ++ keys := by
  rw [received_append]
  cases keys
  case nil => simp
  case cons key keys => simp [h key List.mem_cons_self]

theorem Inv.step (h : Inv SDL_SCANCODE m₀ m ops values)
    (hp : perform SDL_SCANCODE sys (region port base) op m = .ok v m') :
    Inv SDL_SCANCODE m₀ m' (ops ++ [op]) (values ++ v.toList) := by
  have ⟨hs, hc, hk⟩ := h
  cases op
  case send_key k d =>
    rw [perform] at hp
    have ⟨_, m₁, he, hv⟩ := bind_ok_iff.mp hp
    cases hv
    have ⟨hn, hq⟩ := send_key_ok he
    refine ⟨?_, ?_, ?_⟩
    case refine_1 => rw [history_append, record, hn, ← hs]
    case refine_2 =>
      rw [history_append, record, hq, Option.toList_none, List.append_nil, ← List.append_assoc, ← hc, hs]
      split
      case isTrue => rfl
      case isFalse => rw [List.append_nil]
    case refine_3 =>
      intro key hm
      rw [hq, List.mem_append] at hm
      obtain hm | hm := hm
      case inl => exact hk key hm
      case inr =>
        split at hm
        case isTrue hr =>
          rw [List.mem_singleton.mp hm]
          exact Keys.code_ne_zero hr.right
        case isFalse => cases hm
  case read =>
    have ⟨m₁, hr, hq, hn⟩ := read_run sys SDL_SCANCODE port base m
    cases hr.symm.trans hp
    refine ⟨?_, ?_, fun key hm => hk key ?_⟩
    case refine_1 => rw [history_append, record, hn, ← hs]
    case refine_2 => rw [history_append, record, hq, hc, Option.toList_some, received_headD hk]
    case refine_3 => exact List.mem_of_mem_tail (hq ▸ hm)
  case state st =>
    cases hp
    refine ⟨?_, ?_, hk⟩
    case refine_1 => rw [history_append]; rfl
    case refine_2 => rw [history_append, record, Option.toList_none, List.append_nil]; exact hc

theorem Runs.inv (h : Runs SDL_SCANCODE sys (region port base) m₀ ops values m) (hb : m₀.device = .init) :
    Inv SDL_SCANCODE m₀ m ops values := by
  have hp : m₀.device.pending = [] := hb ▸ Queue.pending_init
  induction h
  case nil => exact ⟨rfl, by rw [hp]; rfl, by simp [hp]⟩
  case snoc hs hi => exact hi.step hs

end Runs

-- After any operations the guest has read the codes that have been sent, in their order, up to those that are
-- pending. The next read returns the first pending code, or no key if there is none. The next operation can fail
-- only in the assertion, with 1023 pending codes.
theorem queue_is_fifo (sys : System Queue R) (SDL_SCANCODE : String → Byte) (port : Bool) (base : HostAddr)
    (m₀ m : Machine Queue R) (ops : List Op) (values : List Word) (hb : m₀.device = .init)
    (h : Runs SDL_SCANCODE sys (region port base) m₀ ops values m) :
    let sent := (history SDL_SCANCODE m₀.nemu_state.state ops).snd
    received values <+: sent ∧
    (∃ v m', perform SDL_SCANCODE sys (region port base) .read m = .ok (some v) m' ∧
      (v = NEMU_KEY_NONE ↔ received values = sent) ∧ (v ≠ NEMU_KEY_NONE → received values ++ [v] <+: sent)) ∧
    (∀ op e m', perform SDL_SCANCODE sys (region port base) op m = .error e m' →
      e = .stop (.device "key queue overflow!") ∧ sent.length = (received values).length + 1023) := by
  have ⟨hs, hc, hk⟩ := h.inv hb
  refine ⟨⟨_, hc.symm⟩, ?_, fun op e m' he => ?_⟩
  case refine_1 =>
    have ⟨m', hr, _⟩ := read_run sys SDL_SCANCODE port base m
    refine ⟨_, m', hr, ?_⟩
    rw [hc]
    cases hq : m.device.pending
    case nil => simp
    case cons key keys =>
      have hn := hk key (hq ▸ List.mem_cons_self)
      exact ⟨by simp [hn], fun _ => ⟨keys, by simp⟩⟩
  case refine_2 =>
    cases op
    case send_key k d =>
      rw [perform] at he
      have he := (EState.bind_error_iff.mp he).resolve_right nofun
      have ⟨he, hl⟩ := send_key_error he
      exact ⟨he, by rw [hc, List.length_append, hl]⟩
    case read =>
      have ⟨m₁, hr, _⟩ := read_run sys SDL_SCANCODE port base m
      cases hr.symm.trans he
    case state => cases he

-- Two events of a key, and what is read.

def keyboardSystem : System Queue Unit where
  toConfig                := riscv32.toConfig
  pmem                    := 0
  maps                    := [region false 0]
  HAS_KEYBOARD            := true
  keymap                  := fun _ => 0
  key_enqueue             := key_enqueue
  ref_difftest_exec       := id
  ref_difftest_regcpy_dut := fun _ => ⟨fun _ => 0, 0⟩
  ref_difftest_regcpy_ref := fun _ => id

def keyboardMachine : Machine Queue Unit where
  host             := fun _ => 0
  pc               := 0x80000000
  is_skip_ref      := false
  skip_dut_nr_inst := 0
  device           := .init
  gpr              := fun _ => 0
  nemu_state       := ⟨NEMU_RUNNING, 0, 0⟩
  g_nr_guest_inst  := 0
  ref              := ()
  events           := []

-- The scancode 4 of the key A, and 0 for the others.
def scancodeA (key : String) : Byte :=
  if key = "A" then 4 else 0

-- The key A is pressed, and its code is read.
theorem queue_is_fifo_A : ∃ m, Runs scancodeA keyboardSystem (region false 0) keyboardMachine
    [.send_key 4 true, .read] [0x802b] m ∧ received [0x802b] <+:
      (history scancodeA NEMU_RUNNING [.send_key 4 true, .read]).snd := by
  have hr : ∃ m, Runs scancodeA keyboardSystem (region false 0) keyboardMachine [.send_key 4 true, .read] [0x802b] m :=
    ⟨_, .snoc (v := some 0x802b) (.snoc (v := none) .nil rfl) rfl⟩
  have ⟨m, hr⟩ := hr
  exact ⟨m, hr, (queue_is_fifo keyboardSystem scancodeA false 0 keyboardMachine m _ _ rfl hr).left⟩

end Nemu.Keyboard
