import Ysyx.Minirv.Theorems.Branch

-- The expansion of `seqz` for a destination of the program.

open Rv32 State InstReplace BitVec

namespace InstReplace

variable {sym : Symbols} {s : State} {rd rs1 : Reg}

theorem straight_seqz : Straight (seqz sym rd rs1) := by
  simp [seqz, check8bit0]

theorem bit_beq_zero {v : Word} : bit (v == 0) = if v = 0 then 1 else 0 := by
  simp [bit]

theorem implements_seqz (r : sym.Ready s) (h : rd ≠ sp) :
    s.Implements (seqz sym rd rs1) rd (if rd = s0 then s.reg s0 else if s.reg rs1 = 0 then 1 else 0) := by
  rw [← bit_beq_zero]
  exact (run_seqz r h).implements straight_seqz

-- The result is lost if it goes to s0, which the expansion restores after it has written the result.
theorem seqz_implements_iff (r : sym.Ready s) (h : rd ∉ [gp, tp, sp]) :
    s.Implements (seqz sym rd rs1) rd (if s.reg rs1 = 0 then 1 else 0) ↔
      rd ≠ s0 ∨ s.reg s0 = if s.reg rs1 = 0 then 1 else 0 := by
  have hs : rd ≠ sp := fun he => h (by simp [he])
  have hg : rd ∉ [gp, tp] := fun he => h (List.mem_append_left [sp] he)
  have hv : s.Implements (seqz sym rd rs1) rd _ := implements_seqz r hs
  by_cases hd : rd = s0
  case neg =>
    rw [if_neg hd] at hv
    exact iff_of_true hv (.inl hd)
  case pos =>
    rw [if_pos hd] at hv
    constructor
    case mp =>
      refine fun hi => .inr <| hv.unique hi ?_ (by simp [hd]) hg
      simp [seqz, la, check8bit0]
    case mpr =>
      rintro (hn | he)
      case inl => exact absurd hd hn
      case inr => exact he ▸ hv

theorem seqz_implements_iff_loaded :
    let sym := Symbols.at 0x80100000
    let s := loaded 0x80100000 0x80200000
    s.Implements (seqz sym s0 10) s0 (if s.reg 10 = 0 then 1 else 0) ↔
      s0 ≠ s0 ∨ s.reg s0 = if s.reg 10 = 0 then 1 else 0 :=
  seqz_implements_iff (ready_loaded (by decide)) (by decide)

-- `seqz s0, a0` with 10 in a0 leaves the old value of s0, which is 8.
theorem not_seqz_implements : ¬∀ (sym : Symbols) (s : State) (rd rs1 : Reg), sym.Ready s → rd ∉ [gp, tp, sp] →
    rs1 ∉ [gp, tp, sp] → s.Implements (seqz sym rd rs1) rd (if s.reg rs1 = 0 then 1 else 0) := by
  intro h
  have r : (Symbols.at 0x80100000).Ready (loaded 0x80100000 0x80200000) := ready_loaded (by decide)
  have hi := h _ _ s0 10 r (by decide) (by decide)
  have hv : State.Implements _ (seqz _ s0 10) s0 _ := implements_seqz r (by decide)
  exact absurd (hv.unique hi (by simp [seqz, la, check8bit0]) (by decide) (by decide)) (by decide)

end InstReplace
