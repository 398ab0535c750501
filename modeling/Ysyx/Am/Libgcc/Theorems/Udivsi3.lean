import Mathlib.Data.BitVec
import Ysyx.Am.Libgcc.Basic
import Ysyx.Numbers.Division
import Ysyx.Rv32.M

-- `__udivsi3` and `__umodsi3`. The divisor is shifted up to the dividend, then it comes down again and is subtracted
-- where it fits.

namespace Am.Libgcc.Div

open Rv32 Rv32.Asm State Division

variable {addr : Nat → Word} {s : State} {n d k : Nat}

theorem program_eq : program = [
    bltz a0 24, bltz a1 28, mv a2 a1, mv a1 a0, li a0 (-1), beqz a2 19, li a3 1, bgeu a2 a1 12, blez a2 12,
    slli a2 a2 1, slli a3 a3 1, bgtu a1 a2 8, li a0 0, bltu a1 a2 16, Asm.sub a1 a1 a2, Asm.or a0 a0 a3,
    srli a3 a3 1, srli a2 a2 1, bnez a3 13, ret, mv t0 ra, call 2, mv a0 a1, jr t0, neg a0 a0, bgtz a1 29,
    neg a1 a1, j 2, neg a1 a1, mv t0 ra, call 2, neg a0 a0, jr t0, mv t0 ra, bltz a1 39, bltz a0 41, call 2,
    mv a0 a1, jr t0, neg a1 a1, bgez a0 36, neg a0 a0, call 2, neg a0 a1, jr t0] :=
  rfl

-- The divisor has been shifted by `k`.
structure Shifted (d k : Nat) (s : State) : Prop where
  divisor : (s.reg a2).toNat = d * 2 ^ k
  bit     : (s.reg a3).toNat = 2 ^ k

-- The lines up to the choice of the first loop.
theorem start (h : Placed program addr) (hp : s.pc = addr udivsi3) (hd : s.reg a1 ≠ 0) :
    ∃ s', Reaches program addr s s' ∧ s'.pc = addr 7 ∧ Changes [a0, a1, a2, a3] s s' ∧
      s'.reg a1 = s.reg a0 ∧ Shifted (s.reg a1).toNat 0 s' := by
  rw [program_eq] at h ⊢
  refine ⟨_, h.reaches hp rfl <| h.reaches (i := 3) rfl rfl <| h.reaches (i := 4) rfl rfl <|
    h.reaches (i := 5) rfl rfl <| h.reaches (i := 6) ?_ rfl .refl, rfl, ?_, ?_, ⟨?_, ?_⟩⟩
  case refine_1 => simp_all
  all_goals simp

theorem start_zero (h : Placed program addr) (hp : s.pc = addr udivsi3) (hd : s.reg a1 = 0) :
    ∃ s', Returns program addr [a0, a1, a2, a3] s s' ∧ s'.reg a0 = -1 ∧ s'.reg a1 = s.reg a0 := by
  have ⟨s', hr, hp', hc, h0, h1⟩ : ∃ s', Reaches program addr s s' ∧ s'.pc = addr 19 ∧
      Changes [a0, a1, a2, a3] s s' ∧ s'.reg a0 = -1 ∧ s'.reg a1 = s.reg a0 := by
    rw [program_eq] at h ⊢
    refine ⟨_, h.reaches hp rfl <| h.reaches (i := 3) rfl rfl <| h.reaches (i := 4) rfl rfl <|
      h.reaches (i := 5) rfl rfl .refl, ?_, ?_⟩
    all_goals simp [hd]
  exact ⟨_, (Returns.ret h hp' rfl).after hr hc (hc.reg ra (by decide)), h0, h1⟩

theorem toInt_nonpos_iff {v : Word} : v.toInt ≤ 0 ↔ v.toNat = 0 ∨ 2 ^ 31 ≤ v.toNat := by
  rw [BitVec.toInt_eq_toNat_cond]
  split <;> omega

theorem toNat_shiftLeft_one {v : Word} {x : Nat} (h : v.toNat = x) (hx : 2 * x < 2 ^ 32) :
    (v <<< 1).toNat = 2 * x := by
  rw [BitVec.toNat_shiftLeft, h, Nat.shiftLeft_eq]
  omega

-- A round of the first loop from the first shift to the test at its end.
theorem up_round (h : Placed program addr) (hp : s.pc = addr 9) (ha : Shifted d k s)
    (ht : d * 2 ^ k < 2 ^ 31) (hd : 0 < d) : ∃ s', Reaches program addr s s' ∧ s'.pc = addr 11 ∧ Changes [a2, a3] s s' ∧
      Shifted d (k + 1) s' := by
  have hk : 2 ^ k ≤ d * 2 ^ k := Nat.le_mul_of_pos_left _ hd
  rw [program_eq] at h ⊢
  refine ⟨_, h.reaches hp rfl <| h.reaches (i := 10) rfl rfl .refl, rfl, by simp, ⟨?_, ?_⟩⟩
  case refine_1 => simpa [Nat.pow_succ', Nat.mul_left_comm d] using toNat_shiftLeft_one ha.divisor (by omega)
  case refine_2 => simpa [Nat.pow_succ'] using toNat_shiftLeft_one ha.bit (by omega)

-- The first loop ends before the top bit of the divisor is lost.
theorem up (h : Placed program addr) (hp : s.pc = addr 8) (ha : Shifted d k s) (hd : 0 < d) :
    ∃ s' k', Reaches program addr s s' ∧ s'.pc = addr 12 ∧ Changes [a2, a3] s s' ∧ Shifted d k' s' ∧
      (s.reg a1).toNat < d * 2 ^ (k' + 1) := by
  have hk {k : Nat} : d * 2 ^ (k + 1) = 2 * (d * 2 ^ k) := by
    rw [Nat.pow_succ]
    ring
  induction hn : 2 ^ 32 - d * 2 ^ k using Nat.strong_induction_on generalizing s k
  case h n hi =>
    have hz : 0 < d * 2 ^ k := Nat.mul_pos hd (Nat.two_pow_pos k)
    have hb : (s.reg a2).toInt ≤ 0 ↔ 2 ^ 31 ≤ d * 2 ^ k := by
      rw [toInt_nonpos_iff, ha.divisor]
      omega
    have hr := h.reaches hp (l := blez a2 12) rfl .refl
    rw [exec_blez] at hr
    by_cases ht : 2 ^ 31 ≤ d * 2 ^ k
    case pos =>
      have hlt := (s.reg a1).isLt
      rw [if_pos (hb.mpr ht)] at hr
      exact ⟨_, k, hr, rfl, by simp, ⟨ha.divisor, ha.bit⟩, by rw [hk]; omega⟩
    case neg =>
      rw [if_neg (mt hb.mp ht)] at hr
      obtain ⟨s₁, hr₁, hp₁, hc₁, ha₁⟩ := up_round h (s := s.jump (addr 9)) rfl ⟨ha.divisor, ha.bit⟩ (by omega) hd
      rw [Changes.jump_left_iff] at hc₁
      have h1 : s₁.reg a1 = s.reg a1 := hc₁.reg a1 (by decide)
      have ht₁ := h.reaches hp₁ (l := bgtu a1 a2 8) rfl .refl
      rw [exec_bgtu] at ht₁
      by_cases hl : s₁.reg a2 < s₁.reg a1
      case pos =>
        rw [if_pos hl] at ht₁
        obtain ⟨s', k', hr', hp', hc', ha', hlt⟩ :=
          hi _ (by rw [hk]; omega) (s := s₁.jump (addr 8)) rfl ⟨ha₁.divisor, ha₁.bit⟩ rfl
        exact ⟨s', k', ((hr.trans hr₁).trans ht₁).trans hr', hp', hc₁.trans <| Changes.jump_left_iff.mp hc', ha',
          h1 ▸ hlt⟩
      case neg =>
        rw [if_neg hl] at ht₁
        refine ⟨_, k + 1, (hr.trans hr₁).trans ht₁, rfl, Changes.jump_iff.mpr hc₁, ⟨ha₁.divisor, ha₁.bit⟩, ?_⟩
        have hv := ha₁.divisor
        rw [h1] at hl
        rw [hk, ← hv]
        rw [hk] at hv
        bv_omega

-- A round of the second loop from `L3` to the test at its end.
theorem down_round (h : Placed program addr) (hp : s.pc = addr 13) (ha : Shifted d k s) {n : Nat}
    (hi : Restoring n d (k + 1) (s.reg a0).toNat (s.reg a1).toNat) : ∃ s', Reaches program addr s s' ∧ s'.pc = addr 18 ∧
      Changes [a0, a1, a2, a3] s s' ∧ Restoring n d k (s'.reg a0).toNat (s'.reg a1).toNat ∧
      s'.reg a2 = s.reg a2 >>> 1 ∧ s'.reg a3 = s.reg a3 >>> 1 := by
  have hlt : s.reg a1 < s.reg a2 ↔ (s.reg a1).toNat < d * 2 ^ k := by rw [BitVec.lt_def, ha.divisor]
  rw [program_eq] at h ⊢
  by_cases hb : s.reg a1 < s.reg a2
  case pos =>
    refine ⟨_, h.reaches hp rfl <| h.reaches (i := 16) (congrArg addr (if_pos hb)) rfl <|
      h.reaches (i := 17) rfl rfl .refl, rfl, by simp, ?_, by simp, by simp⟩
    simpa using hi.keep (hlt.mp hb)
  case neg =>
    have hs : (s.reg a1 - s.reg a2).toNat = (s.reg a1).toNat - d * 2 ^ k := by
      rw [← ha.divisor]
      bv_omega
    refine ⟨_, h.reaches hp rfl <| h.reaches (i := 14) (congrArg addr (if_neg hb)) rfl <| h.reaches (i := 15) rfl rfl <|
      h.reaches (i := 16) rfl rfl <| h.reaches (i := 17) rfl rfl .refl, rfl, by simp, ?_, by simp, by simp⟩
    simpa [hs, ha.bit] using hi.subtract <| Nat.le_of_not_lt <| mt hlt.mpr hb

theorem shiftRight_one {v : Word} {x : Nat} (h : v.toNat = 2 * x) : (v >>> 1).toNat = x := by
  rw [BitVec.toNat_ushiftRight, h]
  omega

theorem down (h : Placed program addr) (hp : s.pc = addr 13) (ha : Shifted d k s) {n : Nat}
    (hi : Restoring n d (k + 1) (s.reg a0).toNat (s.reg a1).toNat) : ∃ s', Reaches program addr s s' ∧ s'.pc = addr 19 ∧
      Changes [a0, a1, a2, a3] s s' ∧ (s'.reg a0).toNat = n / d ∧ (s'.reg a1).toNat = n % d := by
  induction k generalizing s
  all_goals
    obtain ⟨s₁, hr₁, hp₁, hc₁, hi₁, h2, h3⟩ := down_round h hp ha hi
    have ht₁ := h.reaches hp₁ (l := bnez a3 13) rfl .refl
    rw [exec_bnez] at ht₁
  case zero =>
    have hz : s₁.reg a3 = 0 := by
      have := ha.bit
      apply BitVec.eq_of_toNat_eq
      rw [h3, BitVec.toNat_ushiftRight, this]
      rfl
    rw [if_neg (not_not.mpr hz)] at ht₁
    exact ⟨_, hr₁.trans ht₁, rfl, Changes.jump_iff.mpr hc₁, hi₁.done.left, hi₁.done.right⟩
  case succ k hk =>
    have ha₁ : Shifted d k s₁ := by
      refine ⟨h2 ▸ shiftRight_one ?_, h3 ▸ shiftRight_one ?_⟩
      case refine_1 => rw [ha.divisor, Nat.pow_succ]; ring
      case refine_2 => rw [ha.bit, Nat.pow_succ']
    have hz : s₁.reg a3 ≠ 0 := by
      intro he
      have hb := ha₁.bit
      rw [he] at hb
      exact (Nat.two_pow_pos k).ne hb
    rw [if_pos hz] at ht₁
    obtain ⟨s', hr', hp', hc', hv⟩ := hk (s := s₁.jump (addr 13)) rfl ⟨ha₁.divisor, ha₁.bit⟩ hi₁
    exact ⟨s', (hr₁.trans ht₁).trans hr', hp', hc₁.trans <| Changes.jump_left_iff.mp hc', hv⟩

-- Both loops.
theorem divide (h : Placed program addr) (hp : s.pc = addr 7) (ha : Shifted d 0 s) (hd : 0 < d) :
    ∃ s', Reaches program addr s s' ∧ s'.pc = addr 19 ∧ Changes [a0, a1, a2, a3] s s' ∧
      (s'.reg a0).toNat = (s.reg a1).toNat / d ∧ (s'.reg a1).toNat = (s.reg a1).toNat % d := by
  have ⟨s₁, k, hr₁, hp₁, hc₁, ha₁, hlt⟩ : ∃ s' k', Reaches program addr s s' ∧ s'.pc = addr 12 ∧
      Changes [a2, a3] s s' ∧ Shifted d k' s' ∧ (s.reg a1).toNat < d * 2 ^ (k' + 1) := by
    have ht := h.reaches hp (l := bgeu a2 a1 12) rfl .refl
    rw [exec_bgeu] at ht
    by_cases hb : s.reg a1 ≤ s.reg a2
    case pos =>
      rw [if_pos hb] at ht
      refine ⟨_, 0, ht, rfl, by simp, ⟨ha.divisor, ha.bit⟩, ?_⟩
      have hv := ha.divisor
      rw [BitVec.le_def, hv] at hb
      omega
    case neg =>
      rw [if_neg hb] at ht
      obtain ⟨s', k', hr', hp', hc', hv⟩ := up h (s := s.jump (addr 8)) rfl ⟨ha.divisor, ha.bit⟩ hd
      exact ⟨s', k', ht.trans hr', hp', Changes.jump_left_iff.mp hc', hv⟩
  have h1 : s₁.reg a1 = s.reg a1 := hc₁.reg a1 (by decide)
  have hr₂ := h.reaches hp₁ (l := li a0 0) rfl .refl
  have ha₂ : Shifted d k ((li a0 0).exec addr 12 s₁) := ⟨by simpa using ha₁.divisor, by simpa using ha₁.bit⟩
  obtain ⟨s', hr', hp', hc', h0', h1'⟩ :=
    down h rfl ha₂ (n := (s.reg a1).toNat) (by simpa [h1] using Restoring.start hlt)
  refine ⟨s', (hr₁.trans hr₂).trans hr', hp', ?_, h0', h1'⟩
  exact hc₁.mono.trans <| Changes.trans (by simp) hc'

theorem udivsi3_returns (h : Placed program addr) (hp : s.pc = addr udivsi3) : ∃ s',
    Returns program addr [a0, a1, a2, a3] s s' ∧ s'.reg a0 = M.divu (s.reg a0) (s.reg a1) ∧
      s'.reg a1 = M.remu (s.reg a0) (s.reg a1) := by
  by_cases hd : s.reg a1 = 0
  case pos =>
    have ⟨s', hr, h0, h1⟩ := start_zero h hp hd
    exact ⟨s', hr, by rw [h0, M.divu, if_pos hd], by rw [h1, M.remu, if_pos hd]⟩
  case neg =>
    have hd' : 0 < (s.reg a1).toNat := Nat.pos_of_ne_zero fun he => hd <| BitVec.eq_of_toNat_eq he
    obtain ⟨s₁, hr₁, hp₁, hc₁, h1, ha⟩ := start h hp hd
    obtain ⟨s₂, hr₂, hp₂, hc₂, hq, hr⟩ := divide h hp₁ ha hd'
    have hc := hc₁.trans hc₂
    refine ⟨_, (Returns.ret h hp₂ rfl).after (hr₁.trans hr₂) hc (hc.reg ra (by decide)), ?_, ?_⟩
    case refine_1 =>
      rw [M.divu, if_neg hd, ← h1]
      exact BitVec.eq_of_toNat_eq <| hq.trans BitVec.toNat_udiv.symm
    case refine_2 =>
      rw [M.remu, if_neg hd, ← h1]
      exact BitVec.eq_of_toNat_eq <| hr.trans BitVec.toNat_umod.symm

end Am.Libgcc.Div
