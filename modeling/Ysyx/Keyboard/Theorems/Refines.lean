import Ysyx.Keyboard.Core

-- As long as codes arrive at least 22 cycles apart, the design is seen by the FSM as a core.

namespace Keyboard

variable {s : Top} {c : Core} {i : Input} {code : Byte} {a : Nat} {k : Ps2} {ck d n : Bool}

structure Abs (s : Top) (c : Core) : Prop where
  fsm      : s.fsm = c.fsm
  count    : s.count = c.count
  overflow : s.kbd.overflow = false
  ready    : s.kbd.ready = c.head.isSome
  full     : ∀ code, c.head = some code → s.kbd.w_ptr = s.kbd.r_ptr + 1 ∧ s.kbd.data = code
  empty    : c.head = none → s.kbd.w_ptr = s.kbd.r_ptr

theorem add_one_ne (x : BitVec 3) : x + 1 ≠ x := by
  revert x
  decide

namespace Abs

theorem settled_iff (h : Abs s c) : s.Settled ↔ c.Settled := by
  constructor
  · intro ⟨he, hw, hn, hc⟩
    refine ⟨?_, h.fsm ▸ hw, h.fsm ▸ hn, h.fsm ▸ hc⟩
    cases hh : c.head
    case none => rfl
    case some code => exact absurd ((h.full _ hh).left.symm.trans he) (add_one_ne _)
  · intro ⟨hh, hw, hn, hc⟩
    exact ⟨h.empty hh, h.fsm ▸ hw, h.fsm ▸ hn, h.fsm ▸ hc⟩

theorem fsm_edge (h : Abs s c) (hr : i.rst = false) {push : Option Byte} :
    (s.edge i).fsm = (c.edge push).fsm := by
  rw [Top.edge, Core.edge, hr, h.fsm, h.overflow, h.ready]
  cases hh : c.head
  case none => exact Fsm.edge_of_not_ready false false
  case some code => rw [(h.full _ hh).right, Option.getD_some]

theorem count_edge (h : Abs s c) (hr : i.rst = false) {push : Option Byte} :
    (s.edge i).count = (c.edge push).count := by
  simp [Top.edge, Core.edge, hr, h.fsm, h.count]

-- An edge at which no code is written.
theorem edge (h : Abs s c) (hr : i.rst = false) (hp : s.kbd.push? i.ps2_data = none) :
    Abs (s.edge i) (c.edge none) := by
  refine ⟨h.fsm_edge hr, h.count_edge hr, by simp [Top.edge, Ps2.edge, hr, hp, h.overflow], ?_, ?_, ?_⟩
  all_goals
    have hready := h.ready
    cases hh : c.head
    case none =>
      have := h.empty hh
      simp_all [Top.edge, Ps2.edge, Ps2.pop, Core.edge]
    case some code =>
      obtain ⟨_, _⟩ := h.full _ hh
      cases hn : c.fsm.nextdata_n
      all_goals simp_all [Top.edge, Ps2.edge, Ps2.pop, Ps2.data, Core.edge, h.fsm]

-- An edge at which a code is written, while no code is unread.
theorem edge_push (h : Abs s c) (hr : i.rst = false) (hp : s.kbd.push? i.ps2_data = some code)
    (hh : c.head = none) : Abs (s.edge i) (c.edge (some code)) := by
  have he := h.empty hh
  have hready := h.ready
  have ho := h.overflow
  have hw := (add_one_ne s.kbd.r_ptr).symm
  refine ⟨h.fsm_edge hr, h.count_edge hr, ?_, ?_, ?_, nofun⟩
  all_goals simp_all [Top.edge, Ps2.edge, Ps2.pop, Ps2.data, Core.edge]

end Abs

-- The receiver at least `a` cycles after the last code. Two cycles with samples are not adjacent.
structure Rx (a : Nat) (k : Ps2) : Prop where
  count : 2 * k.count.toNat ≤ a
  sync  : 2 * k.count.toNat = a → k.ps2_clk_sync.getLsbD 2 = false

namespace Rx

theorem sync_edge : (k.edge true ck d n).ps2_clk_sync.getLsbD 2 = k.ps2_clk_sync.getLsbD 1 := by
  rw [Ps2.edge, BitVec.getLsbD_append, BitVec.getLsbD_extractLsb']
  rfl

theorem sampling_iff : k.sampling = true ↔ k.ps2_clk_sync.getLsbD 2 = true ∧ k.ps2_clk_sync.getLsbD 1 = false := by
  simp [Ps2.sampling]

theorem push?_eq_some (hp : k.push? d = some code) : k.sampling = true ∧ k.count = 10 := by
  rw [Ps2.push?] at hp
  split at hp
  case isTrue h =>
    simp only [Bool.and_eq_true, beq_iff_eq] at h
    exact h.left
  case isFalse => contradiction

theorem edge (h : Rx a k) : Rx (a + 1) (k.edge true ck d n) := by
  cases hs : k.sampling
  case false =>
    have hc : (k.edge true ck d n).count = k.count := by simp [Ps2.edge, hs]
    have := h.count
    exact ⟨by rw [hc]; omega, by rw [hc]; omega⟩
  case true =>
    have ⟨h₂, h₁⟩ := sampling_iff.mp hs
    have hlt : 2 * k.count.toNat < a := Nat.lt_of_le_of_ne h.count fun he =>
      Bool.false_ne_true <| (h.sync he).symm.trans h₂
    have hc : (k.edge true ck d n).count.toNat ≤ k.count.toNat + 1 := by
      by_cases hc : k.count = 10#4
      case pos => simp [Ps2.edge, hs, hc]
      case neg =>
        simp [Ps2.edge, hs, hc]
        omega
    exact ⟨by omega, fun _ => sync_edge.trans h₁⟩

theorem edge_push (hp : k.push? d = some code) : Rx 0 (k.edge true ck d n) := by
  have ⟨hs, hc⟩ := push?_eq_some hp
  have ⟨_, h₁⟩ := sampling_iff.mp hs
  exact ⟨by simp [Ps2.edge, hs, hc], fun _ => sync_edge.trans h₁⟩

theorem le_of_push (h : Rx a k) (hp : k.push? d = some code) : 21 ≤ a := by
  have ⟨hs, hc⟩ := push?_eq_some hp
  have ⟨h₂, _⟩ := sampling_iff.mp hs
  have hn : 2 * k.count.toNat ≠ a := fun he =>
    Bool.false_ne_true <| (h.sync he).symm.trans h₂
  have := h.count
  simp only [hc] at *
  simp at *
  omega

end Rx
end Keyboard
