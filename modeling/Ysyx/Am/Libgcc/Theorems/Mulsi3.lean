import Ysyx.Am.Libgcc.Basic
import Ysyx.Numbers.Multiplication

-- `__mulsi3` multiplies: what is summed up so far and the product of what is left make up the product.

namespace Am.Libgcc.Muldi3

open Rv32 Rv32.Asm State

variable {addr : Nat → Word} {s : State}

theorem add_mul_step (acc x y : Word) :
    (if y &&& 1 = 0 then acc else acc + x) + x <<< 1 * y >>> 1 = acc + x * y := by
  have h : _ + _ * ((y >>> 1).toNat : Word) = acc + x * (y.toNat : Word) := Multiplication.round_words
  rwa [BitVec.natCast_eq_ofNat, BitVec.natCast_eq_ofNat, BitVec.ofNat_toNat, BitVec.ofNat_toNat, BitVec.setWidth_eq,
    BitVec.setWidth_eq] at h

theorem program_eq : program = [
    mv a2 a0, li a0 0, andi a3 a1 1, beqz a3 5, Asm.add a0 a0 a2, srli a1 a1 1, slli a2 a2 1, bnez a1 2, ret] :=
  rfl

-- A round from `L1` to the test at its end.
theorem round (h : Placed program addr) (hp : s.pc = addr 2) : ∃ s', Reaches program addr s s' ∧ s'.pc = addr 7 ∧
    Changes [a0, a1, a2, a3] s s' ∧ s'.reg a0 = (if s.reg a1 &&& 1 = 0 then s.reg a0 else s.reg a0 + s.reg a2) ∧
    s'.reg a1 = s.reg a1 >>> 1 ∧ s'.reg a2 = s.reg a2 <<< 1 := by
  rw [program_eq] at h ⊢
  by_cases hb : s.reg a1 &&& 1 = 0
  case pos =>
    refine ⟨_, h.reaches hp rfl <| h.reaches (i := 3) rfl rfl <| h.reaches (i := 5) (by simp_all) rfl <|
      h.reaches (i := 6) rfl rfl .refl, rfl, ?_⟩
    simp_all
  case neg =>
    refine ⟨_, h.reaches hp rfl <| h.reaches (i := 3) rfl rfl <| h.reaches (i := 4) (by simp_all) rfl <|
      h.reaches (i := 5) rfl rfl <| h.reaches (i := 6) rfl rfl .refl, rfl, ?_⟩
    simp_all

theorem loop (h : Placed program addr) (hp : s.pc = addr 2) : ∃ s', Reaches program addr s s' ∧ s'.pc = addr 8 ∧
    Changes [a0, a1, a2, a3] s s' ∧ s'.reg a0 = s.reg a0 + s.reg a2 * s.reg a1 := by
  induction hn : (s.reg a1).toNat using Nat.strong_induction_on generalizing s
  case h n hi =>
    obtain ⟨s₁, hr, hp₁, hc, h0, h1, h2⟩ := round h hp
    have hs := add_mul_step (s.reg a0) (s.reg a2) (s.reg a1)
    rw [← h0, ← h1, ← h2] at hs
    have ht : Reaches program addr s₁ (s₁.jump (addr (if s₁.reg a1 ≠ 0 then 2 else 8))) :=
      h.reaches hp₁ rfl .refl
    by_cases hz : s₁.reg a1 = 0
    case pos =>
      refine ⟨_, hr.trans ht, by simp [hz], by simpa using hc, ?_⟩
      rw [← hs, hz]
      simp
    case neg =>
      have hlt : (s₁.reg a1).toNat < n := by
        have hne : (s₁.reg a1).toNat ≠ 0 := fun he => hz <| BitVec.eq_of_toNat_eq he
        rw [h1, BitVec.toNat_ushiftRight] at hne ⊢
        omega
      obtain ⟨s', hr', hp', hc', h0'⟩ := hi _ hlt (s := s₁.jump (addr 2)) rfl rfl
      rw [if_pos hz] at ht
      exact ⟨s', (hr.trans ht).trans hr', hp', hc.trans <| Changes.jump_left_iff.mp hc', h0'.trans hs⟩

theorem start (h : Placed program addr) (hp : s.pc = addr mulsi3) : ∃ s', Reaches program addr s s' ∧ s'.pc = addr 2 ∧
    Changes [a0, a1, a2, a3] s s' ∧ s'.reg a0 = 0 ∧ s'.reg a1 = s.reg a1 ∧ s'.reg a2 = s.reg a0 := by
  rw [program_eq] at h ⊢
  refine ⟨_, h.reaches hp rfl <| h.reaches (i := 1) rfl rfl .refl, rfl, ?_⟩
  simp

theorem mulsi3_returns (h : Placed program addr) (hp : s.pc = addr mulsi3) : ∃ s',
    Returns program addr [a0, a1, a2, a3] s s' ∧ s'.reg a0 = s.reg a0 * s.reg a1 := by
  obtain ⟨s₁, hr₁, hp₁, hc₁, h0, h1, h2⟩ := start h hp
  obtain ⟨s₂, hr₂, hp₂, hc₂, hv⟩ := loop h hp₁
  have hc := hc₁.trans hc₂
  refine ⟨_, (Returns.ret h hp₂ rfl).after (hr₁.trans hr₂) hc (hc.reg ra (by decide)), ?_⟩
  rw [reg_jump, hv, h0, h1, h2]
  simp

end Am.Libgcc.Muldi3
