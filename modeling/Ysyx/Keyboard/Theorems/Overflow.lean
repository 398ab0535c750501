import Ysyx.Keyboard.Receiver
import Ysyx.Keyboard.Theorems.Strokes

-- The keyboard design after an initial reset, for all waveforms of its inputs, resets included.

namespace Keyboard

variable {s : Top} {w : Nat → Input} {i : Input} {c : Core} {n : Nat}

theorem inv_edge (h : ∃ l a, Inv l a s) : ∃ l a, Inv l a (s.edge i) := by
  have ⟨l, a, hi⟩ := h
  cases hr : i.rst
  case true => exact ⟨[], 5, inv_reset hr⟩
  case false =>
    cases hp : s.kbd.push? i.ps2_data
    case none => exact ⟨l, a + 1, hi.edge hr hp⟩
    case some code => exact ⟨l ++ [code], 0, hi.edge_push hr hp⟩

theorem Abs.length_unread (h : Abs s c) : s.kbd.unread.length ≤ 1 := by
  rw [Ps2.unread, Ring.length_between]
  cases hc : c.head
  case none => simp [h.empty hc]
  case some code => simp [(h.full code hc).left]

-- The states that have a name.
def Named (state : BitVec 3) : Prop :=
  state ∈ [IDLE, ACK_MAKE, HOLD, ACK_REP, ACK_F0, WAIT_REL, ACK_REL]

instance : DecidablePred Named :=
  fun state => inferInstanceAs <| Decidable (state ∈ [IDLE, ACK_MAKE, HOLD, ACK_REP, ACK_F0, WAIT_REL, ACK_REL])

theorem next_state_named (f : Fsm) (data : Byte) (ready : Bool) : Named (f.next_state data ready) := by
  rw [Fsm.next_state]
  split
  all_goals
    repeat' split
    all_goals decide

theorem Fsm.edge_named (f : Fsm) (rst ready overflow : Bool) (data : Byte) :
    Named (f.edge rst data ready overflow).state := by
  rw [Fsm.edge]
  split
  case isTrue => exact (by decide : Named IDLE)
  case isFalse => exact next_state_named f data ready

theorem never_overflows (s : Top) (h : i.rst = true) (w : Nat → Input) (n : Nat) :
    ((s.edge i).run w n).kbd.overflow = false ∧ ((s.edge i).run w n).kbd.unread.length ≤ 1 ∧
    Named ((s.edge i).run w n).fsm.state := by
  have hi : ∃ l a, Inv l a ((s.edge i).run w n) :=
    Clocked.run_invariant (P := fun _ s => ∃ l a, Inv l a s) ⟨[], 5, inv_reset h⟩ fun _ _ => inv_edge
  have hn : Named ((s.edge i).run w n).fsm.state := by
    cases n
    case zero => exact Fsm.edge_named ..
    case succ => exact Fsm.edge_named ..
  have ⟨_, _, hi⟩ := hi
  have ⟨_, ha, _⟩ := hi.core
  exact ⟨ha.overflow, ha.length_unread, hn⟩

theorem never_overflows_cleared : (cleared.run (kbd_sendcode [0x1C, 0xF0]) 200).kbd.overflow = false :=
  (never_overflows _ rfl (kbd_sendcode [0x1C, 0xF0]) 200).left

end Keyboard
