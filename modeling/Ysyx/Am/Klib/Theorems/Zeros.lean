import Mathlib.Tactic.Ring
import Ysyx.Am.Klib.Int64
import Ysyx.Bits.Zeros

-- The functions of int64.c that count zeros.

namespace Am.Klib.Int64

open Halves Zeros

variable {a x r m : SuInt} {n h k : Nat}

theorem test_shiftLeft {p : Prop} [Decidable p] (hk : (1 : SuInt) <<< k = BitVec.ofNat 32 h) (hh : h ≤ 16) :
    (test p <<< k).toNat = if p then h else 0 := by
  rw [test]
  split
  case isTrue =>
    rw [hk, BitVec.toNat_ofNat]
    omega
  case isFalse => simp

section Leading

-- A step of `__clzsi2`.
theorem leading_step (l : Leading 32 n (h + h) r.toNat x.toNat) (hm : m.toNat = (2 ^ h - 1) <<< h)
    (hk : (1 : SuInt) <<< k = BitVec.ofNat 32 h) (hh : h ≤ 16) :
    Leading 32 n h (r + test (x &&& m = 0) <<< k).toNat
      (x >>> (BitVec.ofNat 32 h - test (x &&& m = 0) <<< k).toNat).toNat := by
  have hx : x &&& m = 0 ↔ x.toNat < 2 ^ h := by
    rw [← and_mask_eq_zero l.lt, ← hm, ← BitVec.toNat_and]
    exact BitVec.toNat_eq
  have hr : r.toNat ≤ 32 := by
    have hl := l.log
    have hu := (Nat.log2_lt l.pos).mpr l.lt
    omega
  have ht := test_shiftLeft (p := x &&& m = 0) hk hh
  have hn : (BitVec.ofNat 32 h).toNat = h := by rw [BitVec.toNat_ofNat, Nat.mod_eq_of_lt (by omega)]
  by_cases hp : x &&& m = 0
  case pos =>
    rw [if_pos hp] at ht
    rw [BitVec.toNat_add_of_lt (by omega), BitVec.toNat_sub_of_le (by rw [BitVec.le_def]; omega), ht, hn, Nat.sub_self]
    exact l.skip (hx.mp hp)
  case neg =>
    rw [if_neg hp] at ht
    rw [BitVec.toNat_add_of_lt (by omega), BitVec.toNat_sub_of_le (by rw [BitVec.le_def]; omega), ht, hn, Nat.sub_zero,
      BitVec.toNat_ushiftRight, Nat.shiftRight_eq_div_pow]
    exact l.keep (Nat.le_of_not_lt <| mt hx.mpr hp)

-- What is left are two bits.
theorem leading_end (l : Leading 32 n 2 r.toNat x.toNat) :
    (r + ((2 - x) &&& -test (x &&& 2 = 0))).toNat + Nat.log2 n = 31 := by
  have hx : x = 1 ∨ x = 2 ∨ x = 3 := by
    have h₀ := l.pos
    have h := l.lt
    bv_omega
  have he : ((2 - x) &&& -test (x &&& 2 = 0)).toNat + Nat.log2 x.toNat = 1 := by
    obtain rfl | rfl | rfl := hx
    all_goals decide
  have hl := l.log
  rw [BitVec.toNat_add_of_lt (by omega)]
  omega

theorem clzsi2_eq (h : a ≠ 0) : (clzsi2 a).toNat + Nat.log2 a.toNat = 31 := by
  have l₀ : Leading 32 a.toNat 32 (0 : SuInt).toNat a.toNat :=
    .start (fun he => h <| BitVec.eq_of_toNat_eq he) a.isLt
  have l₁ := leading_step (h := 16) (k := 4) (m := 0xffff0000) l₀ rfl rfl (by decide)
  rw [show (0 : SuInt) + _ = _ from BitVec.zero_add _] at l₁
  have l₂ := leading_step (h := 8) (k := 3) (m := 0xff00) l₁ rfl rfl (by decide)
  have l₃ := leading_step (h := 4) (k := 2) (m := 0xf0) l₂ rfl rfl (by decide)
  have l₄ := leading_step (h := 2) (k := 1) (m := 0xc) l₃ rfl rfl (by decide)
  exact leading_end l₄

end Leading

section Trailing

-- A step of `__ctzsi2`.
theorem trailing_step (t : Trailing n (h + h) r.toNat x.toNat) (hn : n < 2 ^ 32) (hm : m.toNat = 2 ^ h - 1)
    (hk : (1 : SuInt) <<< k = BitVec.ofNat 32 h) (hh : h ≤ 16) :
    Trailing n h (r + test (x &&& m = 0) <<< k).toNat (x >>> (test (x &&& m = 0) <<< k).toNat).toNat := by
  have hx : x &&& m = 0 ↔ x.toNat % 2 ^ h = 0 := by
    rw [← Nat.and_two_pow_sub_one_eq_mod, ← hm, ← BitVec.toNat_and]
    exact BitVec.toNat_eq
  have hr := t.lt hn
  have ht := test_shiftLeft (p := x &&& m = 0) hk hh
  by_cases hp : x &&& m = 0
  case pos =>
    rw [if_pos hp] at ht
    rw [BitVec.toNat_add_of_lt (by omega), ht, BitVec.toNat_ushiftRight, Nat.shiftRight_eq_div_pow]
    exact t.skip (hx.mp hp)
  case neg =>
    rw [if_neg hp] at ht
    rw [BitVec.toNat_add_of_lt (by omega), ht]
    exact t.keep (mt hx.mpr hp)

theorem trailing_end (t : Trailing n 2 r.toNat x.toNat) (hn : n < 2 ^ 32) :
    ∃ k, n = (2 * k + 1) * 2 ^ (r + ((2 - (x &&& 3) >>> 1) &&& -test (x &&& 3 &&& 1 = 0))).toNat := by
  have hr := t.lt hn
  have hp := t.pos
  have hy : (x &&& 3).toNat = x.toNat % 4 := by
    rw [BitVec.toNat_and]
    exact Nat.and_two_pow_sub_one_eq_mod x.toNat 2
  generalize x &&& 3 = y at hy
  have hx : y = 1 ∨ y = 2 ∨ y = 3 := by bv_omega
  rw [t.eq]
  by_cases h : x.toNat % 2 = 0
  case pos =>
    have he : y = 2 := by
      rw [Nat.pow_two] at hp
      bv_omega
    refine ⟨x.toNat / 4, ?_⟩
    have hz : ((2 - y >>> 1) &&& -test (y &&& 1 = 0)) = 1 := he ▸ rfl
    rw [hz, BitVec.toNat_add_of_lt (by simp; omega), show (1 : SuInt).toNat = 1 from rfl, Nat.pow_succ, ← Nat.mul_assoc,
      Nat.mul_right_comm]
    rw [he] at hy
    exact congrArg (· * 2 ^ r.toNat) (by simp at hy; omega)
  case neg =>
    refine ⟨x.toNat / 2, ?_⟩
    have hz : ((2 - y >>> 1) &&& -test (y &&& 1 = 0)) = 0 := by
      obtain rfl | rfl | rfl := hx
      case inr.inl => simp at hy; omega
      all_goals rfl
    rw [hz, show r + 0 = r from BitVec.add_zero r]
    exact congrArg (· * 2 ^ r.toNat) (by omega)

theorem ctzsi2_eq (h : a ≠ 0) : ∃ k, a.toNat = (2 * k + 1) * 2 ^ (ctzsi2 a).toNat := by
  have t₀ : Trailing a.toNat 32 (0 : SuInt).toNat a.toNat :=
    .start (fun he => h <| BitVec.eq_of_toNat_eq he) a.isLt
  have t₁ := trailing_step (h := 16) (k := 4) (m := 0xffff) t₀ a.isLt rfl rfl (by decide)
  rw [show (0 : SuInt) + _ = _ from BitVec.zero_add _] at t₁
  have t₂ := trailing_step (h := 8) (k := 3) (m := 0xff) t₁ a.isLt rfl rfl (by decide)
  have t₃ := trailing_step (h := 4) (k := 2) (m := 0xf) t₂ a.isLt rfl rfl (by decide)
  have t₄ := trailing_step (h := 2) (k := 1) (m := 0x3) t₃ a.isLt rfl rfl (by decide)
  exact trailing_end t₄ a.isLt

theorem ctzsi2_lt (h : a ≠ 0) : (ctzsi2 a).toNat < 32 := by
  obtain ⟨k, he⟩ := ctzsi2_eq h
  have hl : 2 ^ (ctzsi2 a).toNat ≤ a.toNat := by
    rw [he]
    exact Nat.le_mul_of_pos_left _ (2 * k).succ_pos
  exact (Nat.pow_lt_pow_iff_right (by decide)).mp <| Nat.lt_of_le_of_lt hl a.isLt

end Trailing

section Wide

variable {a : DiInt}

theorem test_neg {p : Prop} [Decidable p] : -test p = if p then BitVec.allOnes 32 else 0 := by
  rw [test]
  split <;> rfl

theorem and_ones : x &&& 0xffffffff#32 = x :=
  BitVec.and_allOnes

theorem toNat_halves : a.toNat = (high a : SuInt).toNat * 2 ^ 32 + (low a : SuInt).toNat := by
  have h : (high a : SuInt) ++ (low a : SuInt) = a := high_append_low
  conv_lhs => rw [← h]
  exact toNat_append

theorem clzdi2_eq (h : a ≠ 0) : (clzdi2 a).toNat + Nat.log2 a.toNat = 63 := by
  have ha := toNat_halves (a := a)
  rw [clzdi2, test_neg]
  generalize (low a : SuInt) = l at ha
  generalize (high a : SuInt) = u at ha
  by_cases hu : u = 0
  case pos =>
    have he : a.toNat = l.toNat := by rw [ha, hu]; simp
    have hc := clzsi2_eq (a := l) fun hl => h <| BitVec.eq_of_toNat_eq <| by rw [he, hl]; rfl
    have hs : u &&& ~~~BitVec.allOnes 32 ||| l &&& BitVec.allOnes 32 = l := by simp [and_ones]
    rw [if_pos hu, hs, he, BitVec.allOnes_and, BitVec.toNat_add_of_lt (by simp; omega)]
    simp
    omega
  case neg =>
    have hc := clzsi2_eq hu
    have hp : 1 ≤ u.toNat := Nat.pos_of_ne_zero fun h => hu <| BitVec.eq_of_toNat_eq h
    have hd : a.toNat / 2 ^ 32 = u.toNat := by omega
    have hl : Nat.log2 (a.toNat / 2 ^ 32) + 32 = _ := Leading.log2_div (by omega)
    have hs : u &&& ~~~0 ||| l &&& 0 = u := by simp [and_ones]
    rw [if_neg hu, hs]
    rw [hd] at hl
    simp
    omega

theorem ctzdi2_eq (h : a ≠ 0) : ∃ k, a.toNat = (2 * k + 1) * 2 ^ (ctzdi2 a).toNat := by
  have ha := toNat_halves (a := a)
  rw [ctzdi2, test_neg]
  generalize (low a : SuInt) = l at ha
  generalize (high a : SuInt) = u at ha
  by_cases hl : l = 0
  case pos =>
    have he : a.toNat = u.toNat * 2 ^ 32 := by rw [ha, hl]; simp
    have hu : u ≠ 0 := fun hu => h <| BitVec.eq_of_toNat_eq <| by rw [he, hu]; rfl
    obtain ⟨k, hk⟩ := ctzsi2_eq hu
    have hc := ctzsi2_lt hu
    have hs : u &&& BitVec.allOnes 32 ||| l &&& ~~~BitVec.allOnes 32 = u := by simp [and_ones]
    refine ⟨k, ?_⟩
    rw [if_pos hl, hs, he, BitVec.allOnes_and, BitVec.toNat_add_of_lt (by simp; omega), hk, Nat.mul_assoc,
      ← Nat.pow_add]
    rfl
  case neg =>
    obtain ⟨k, hk⟩ := ctzsi2_eq hl
    have hc := ctzsi2_lt hl
    have hs : u &&& 0 ||| l &&& ~~~0 = l := by simp [and_ones]
    have hp : 2 ^ 32 = 2 * 2 ^ (31 - (ctzsi2 l).toNat) * 2 ^ (ctzsi2 l).toNat := by
      rw [← Nat.pow_succ', ← Nat.pow_add]
      congr 1
      omega
    refine ⟨u.toNat * 2 ^ (31 - (ctzsi2 l).toNat) + k, ?_⟩
    have hz : (ctzsi2 l + (0 &&& 32)).toNat = (ctzsi2 l).toNat := by simp
    rw [if_neg hl, hs, hz, ha, hk, hp]
    ring

-- The zeros before the first one and those behind the last one.
theorem zeros_counted {a : SuInt} {b : DiInt} (ha : a ≠ 0) (hb : b ≠ 0) :
    (clzsi2 a).toNat = 31 - Nat.log2 a.toNat ∧ (∃ k, a.toNat = (2 * k + 1) * 2 ^ (ctzsi2 a).toNat) ∧
    (clzdi2 b).toNat = 63 - Nat.log2 b.toNat ∧ (∃ k, b.toNat = (2 * k + 1) * 2 ^ (ctzdi2 b).toNat) := by
  have hca := clzsi2_eq ha
  have hcb := clzdi2_eq hb
  exact ⟨by omega, ctzsi2_eq ha, by omega, ctzdi2_eq hb⟩

theorem zeros_counted_shifted : let a : SuInt := 0x00a00000; let b : DiInt := 0x00a0000000000000
    (clzsi2 a).toNat = 31 - Nat.log2 a.toNat ∧ (∃ k, a.toNat = (2 * k + 1) * 2 ^ (ctzsi2 a).toNat) ∧
    (clzdi2 b).toNat = 63 - Nat.log2 b.toNat ∧ (∃ k, b.toNat = (2 * k + 1) * 2 ^ (ctzdi2 b).toNat) :=
  zeros_counted (by decide) (by decide)

end Wide
end Am.Klib.Int64
