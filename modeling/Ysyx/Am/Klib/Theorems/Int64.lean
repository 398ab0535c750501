import Ysyx.Am.Klib.Theorems.Zeros
import Ysyx.Numbers.Division

-- `__udivmoddi4` divides, and so do the functions that call it.

namespace Am.Klib.Int64

open Halves Division

variable {n d q r : DuInt} {sr : SuInt} {k Q : Nat}

section Round

-- The double registers, shifted by one bit.

theorem shift_in {x b : DuInt} (hb : b.toNat < 2) : (x <<< 1 ||| b).toNat = 2 * x.toNat % 2 ^ 64 + b.toNat := by
  have hx : x.toNat <<< 1 % 2 ^ 64 = (x.toNat % 2 ^ 63) <<< 1 := by
    rw [Nat.shiftLeft_eq, Nat.shiftLeft_eq]
    omega
  rw [BitVec.toNat_or, BitVec.toNat_shiftLeft, hx, ← Nat.shiftLeft_add_eq_or_of_lt hb, Nat.shiftLeft_eq]
  omega

theorem halves (n : DuInt) : (high n : SuInt) ++ (low n : SuInt) = n :=
  high_append_low

theorem round_r : ((high r : SuInt) <<< 1 ||| (low r : SuInt) >>> 31) ++
    ((low r : SuInt) <<< 1 ||| (high q : SuInt) >>> 31) = r <<< 1 ||| q >>> 63 := by
  conv_rhs => rw [← halves r, ← halves q, shiftLeft_append (by decide), shiftRight_append_of_le (by decide), append_or]
  rw [show ∀ x : SuInt, x ||| 0 = x from fun x => BitVec.or_zero]

theorem round_q {carry : SuInt} : ((high q : SuInt) <<< 1 ||| (low q : SuInt) >>> 31) ++
    ((low q : SuInt) <<< 1 ||| carry) = q <<< 1 ||| carry.setWidth 64 := by
  have hc : carry.setWidth 64 = (0 : SuInt) ++ carry := setWidth_eq_append
  conv_rhs => rw [← halves q, shiftLeft_append (by decide), hc, append_or]
  rw [show ∀ x : SuInt, x ||| 0 = x from fun x => BitVec.or_zero]

-- What a round shifts in, and whether it subtracts from it.

def shifted (q r : DuInt) : DuInt :=
  r <<< 1 ||| q >>> 63

def sign (d r : DuInt) : DiInt :=
  (d - r - 1).sshiftRight 63

theorem round_eq {carry : SuInt} : round d (q, r, carry) = (q <<< 1 ||| carry.setWidth 64,
    shifted q r - (d &&& sign d (shifted q r)), (sign d (shifted q r) &&& 1).setWidth 32) := by
  rw [shifted, ← round_r, ← round_q]
  rfl

theorem sshiftRight_eq {x : DiInt} : x.sshiftRight 63 = if x.msb then BitVec.allOnes 64 else 0 := by
  ext i hi
  have hl : (if h : 63 + i < 64 then x[63 + i] else x.msb) = x.msb := by
    split
    case isTrue h =>
      have h₀ : i = 0 := by omega
      subst h₀
      exact (BitVec.msb_eq_getLsbD_last x).symm
    case isFalse => rfl
  rw [BitVec.getElem_sshiftRight, hl]
  cases x.msb
  case false => simp
  case true  => rw [if_pos rfl, BitVec.getElem_allOnes]

-- The sign of the difference says which one is greater, if they are not too far apart.
theorem sign_eq (h₁ : d.toNat ≤ r.toNat + 2 ^ 63) (h₂ : r.toNat < d.toNat + 2 ^ 63) :
    sign d r = if d.toNat ≤ r.toNat then BitVec.allOnes 64 else 0 := by
  have hm : (d - r - 1).msb = decide (d.toNat ≤ r.toNat) := by
    rw [BitVec.msb_eq_decide, decide_eq_decide]
    bv_omega
  rw [sign, sshiftRight_eq, hm]
  simp only [decide_eq_true_eq]

-- The registers before the last `k` rounds, where `Q` is the quotient so far. The last bit of it is still in the carry.
structure Loop (n d : DuInt) (k Q : Nat) (q r : DuInt) (carry : SuInt) : Prop where
  leading : Leading n.toNat d.toNat k Q r.toNat
  quot    : q.toNat = n.toNat % 2 ^ k * 2 ^ (64 - k) + Q / 2
  carry   : carry.toNat = Q % 2

namespace Loop

variable {carry : SuInt}

theorem lt_of_le {x : Nat} (hx : x ≤ n.toNat / 2 ^ (k + 1)) (hk : k < 63) : x < 2 ^ (63 - k) := by
  refine hx.trans_lt <| Nat.div_lt_of_lt_mul ?_
  rw [← Nat.pow_add, show k + 1 + (63 - k) = 64 by omega]
  exact n.isLt

-- The top bit of `q` is the next bit of the dividend.
theorem quot_eq (l : Loop n d (k + 1) Q q r carry) (hk : k < 63) :
    ∃ a < 2 ^ 63, q.toNat = n.toNat / 2 ^ k % 2 * 2 ^ 63 + a ∧ 2 * a + Q % 2 = n.toNat % 2 ^ k * 2 ^ (64 - k) + Q := by
  have hQ : Q < 2 ^ (63 - k) := lt_of_le (l.leading.quot ▸ Nat.div_le_self _ _) hk
  have hp : 2 ^ k * 2 ^ (63 - k) = 2 ^ 63 := by rw [← Nat.pow_add, show k + (63 - k) = 63 by omega]
  have hn : n.toNat % 2 ^ k * 2 ^ (63 - k) + 2 ^ (63 - k) ≤ 2 ^ 63 := by
    rw [← hp, ← Nat.succ_mul]
    exact Nat.mul_le_mul_right _ <| Nat.mod_lt _ (Nat.two_pow_pos k)
  refine ⟨n.toNat % 2 ^ k * 2 ^ (63 - k) + Q / 2, by omega, ?_, ?_⟩
  case refine_1 =>
    rw [l.quot, Nat.pow_succ, Nat.mod_mul, Nat.add_mul, Nat.mul_comm (2 ^ k), Nat.mul_assoc,
      show 64 - (k + 1) = 63 - k by omega, hp]
    omega
  case refine_2 =>
    rw [show 64 - k = 63 - k + 1 by omega, Nat.pow_succ, ← Nat.mul_assoc]
    omega

-- Only a single round is made for a divisor that has the top bit.
theorem shifted_eq (l : Loop n d (k + 1) Q q r carry) (hk : k < 63) :
    (shifted q r).toNat = 2 * r.toNat + n.toNat / 2 ^ k % 2 ∧
    (k = 0 → 2 ^ 63 < d.toNat → (shifted q r).toNat = n.toNat) := by
  obtain ⟨a, ha, hq, -⟩ := l.quot_eq hk
  have hr : r.toNat ≤ n.toNat / 2 ^ (k + 1) := l.leading.rest ▸ Nat.mod_le _ _
  have hr' : r.toNat < 2 ^ 63 := (lt_of_le hr hk).trans_le <| Nat.pow_le_pow_right (by decide) (Nat.sub_le _ _)
  have hb : (q >>> 63).toNat = n.toNat / 2 ^ k % 2 := by
    rw [BitVec.toNat_ushiftRight, Nat.shiftRight_eq_div_pow]
    omega
  have hs : (shifted q r).toNat = 2 * r.toNat + n.toNat / 2 ^ k % 2 := by
    rw [shifted, shift_in (by omega), hb]
    omega
  refine ⟨hs, fun hk hd => ?_⟩
  have hn := n.isLt
  have he := l.leading.rest
  subst hk
  rw [Nat.mod_eq_of_lt (by omega)] at he
  omega

theorem step (l : Loop n d (k + 1) Q q r carry) (hk : k < 63) (hd : d ≠ 0)
    (hs : d.toNat ≤ 2 ^ 63 ∨ k = 0 ∧ 2 ^ 63 ≤ n.toNat) :
    ∃ Q', Loop n d k Q' (round d (q, r, carry)).1 (round d (q, r, carry)).2.1 (round d (q, r, carry)).2.2 := by
  obtain ⟨a, ha, hq, he⟩ := l.quot_eq hk
  obtain ⟨hr, hn⟩ := l.shifted_eq hk
  have hd' : 0 < d.toNat := Nat.pos_of_ne_zero fun h => hd <| BitVec.eq_of_toNat_eq h
  have hlt := l.leading.lt hd'
  have hb := Nat.mod_lt (n.toNat / 2 ^ k) (show 2 > 0 by decide)
  have hc : (carry.setWidth 64).toNat = Q % 2 := by rw [BitVec.toNat_setWidth_of_le (by decide), l.carry]
  have hq' : (q <<< 1 ||| carry.setWidth 64).toNat = n.toNat % 2 ^ k * 2 ^ (64 - k) + Q := by
    rw [shift_in (by omega), hc]
    omega
  rw [round_eq, sign_eq (by omega) (by omega)]
  generalize shifted q r = r' at hr
  by_cases hc : d.toNat ≤ r'.toNat
  case pos =>
    rw [if_pos hc]
    refine ⟨2 * Q + 1, ?_, ?_, ?_⟩
    case refine_1 =>
      rw [BitVec.and_allOnes, BitVec.toNat_sub_of_le hc, hr]
      exact l.leading.subtract hd' (hr ▸ hc)
    case refine_2 => rw [hq']; omega
    case refine_3 => rw [Nat.mul_add_mod]; rfl
  case neg =>
    rw [if_neg hc]
    refine ⟨2 * Q, ?_, ?_, ?_⟩
    case refine_1 =>
      rw [show r' - (d &&& 0) = r' by simp, hr]
      exact l.leading.keep (by omega)
    case refine_2 => rw [hq']; omega
    case refine_3 => rw [Nat.mul_mod_right]; rfl

end Loop

end Round

section Divide

theorem Loop.run {c : SuInt} (l : Loop n d k Q q r c) (hk : k ≤ 63) (hd : d ≠ 0)
    (hs : d.toNat ≤ 2 ^ 63 ∨ k ≤ 1 ∧ 2 ^ 63 ≤ n.toNat) :
    ∃ Q', Loop n d 0 Q' ((round d)^[k] (q, r, c)).1 ((round d)^[k] (q, r, c)).2.1 ((round d)^[k] (q, r, c)).2.2 := by
  induction k generalizing Q q r c
  case zero => exact ⟨Q, l⟩
  case succ k hi =>
    obtain ⟨Q₁, l₁⟩ := l.step hk hd (hs.imp_right fun h => ⟨by omega, h.right⟩)
    exact hi l₁ (by omega) (hs.imp_right fun h => ⟨by omega, h.right⟩)

theorem loop_start (hk : k ≤ 63) (hn : n.toNat / 2 ^ k < d.toNat) : Loop n d k 0 (n <<< (64 - k)) (n >>> k) 0 where
  leading := by
    rw [BitVec.toNat_ushiftRight, Nat.shiftRight_eq_div_pow]
    exact .start hn
  quot := by
    have hp : 2 ^ 64 = 2 ^ k * 2 ^ (64 - k) := by rw [← Nat.pow_add, show k + (64 - k) = 64 by omega]
    rw [BitVec.toNat_shiftLeft, Nat.shiftLeft_eq, hp, Nat.mul_mod_mul_right]
    rfl
  carry := rfl

theorem divide_eq (hd : d ≠ 0) (hk : sr.toNat ≤ 63) (hn : n.toNat / 2 ^ sr.toNat < d.toNat)
    (hs : d.toNat ≤ 2 ^ 63 ∨ sr.toNat ≤ 1 ∧ 2 ^ 63 ≤ n.toNat) :
    divide d sr (n <<< (64 - sr.toNat)) (n >>> sr.toNat) = (n / d, n % d) := by
  obtain ⟨Q, l⟩ := (loop_start hk hn).run hk hd hs
  rw [divide]
  generalize (round d)^[sr.toNat] _ = x at l
  obtain ⟨hq, hr⟩ := l.leading.done
  have hc : (x.2.2.setWidth 64).toNat = Q % 2 := by rw [BitVec.toNat_setWidth_of_le (by decide), l.carry]
  have hQ : Q < 2 ^ 64 := hq ▸ (Nat.div_le_self _ _).trans_lt n.isLt
  have hx := l.quot
  rw [Nat.pow_zero, Nat.mod_one, Nat.zero_mul, Nat.zero_add] at hx
  refine Prod.ext (BitVec.eq_of_toNat_eq ?_) (BitVec.eq_of_toNat_eq ?_)
  case refine_1 =>
    have hb : (x.2.2.setWidth 64).toNat < 2 := hc ▸ Nat.mod_lt _ (by decide)
    refine (shift_in hb).trans ?_
    rw [hc, BitVec.toNat_udiv, ← hq]
    omega
  case refine_2 => rw [BitVec.toNat_umod, ← hr]

-- The number of rounds is the difference of the lengths of the operands.
theorem divide_log (hd : d ≠ 0) (hl : Nat.log2 d.toNat ≤ Nat.log2 n.toNat)
    (hk : sr.toNat = Nat.log2 n.toNat - Nat.log2 d.toNat + 1) (h : sr.toNat ≤ 63) :
    divide d sr (n <<< (64 - sr.toNat)) (n >>> sr.toNat) = (n / d, n % d) := by
  have hd' : d.toNat ≠ 0 := fun h => hd <| BitVec.eq_of_toNat_eq h
  refine divide_eq hd h ?lt ?_
  case lt =>
    refine (Nat.div_lt_of_lt_mul ?_).trans_le <| Nat.log2_self_le hd'
    rw [← Nat.pow_add, show sr.toNat + Nat.log2 d.toNat = Nat.log2 n.toNat + 1 by omega]
    exact Nat.lt_log2_self
  by_cases hs : d.toNat ≤ 2 ^ 63
  case pos => exact .inl hs
  case neg =>
    have hl' : 63 ≤ Nat.log2 d.toNat := (Nat.le_log2 hd').mpr (by omega)
    have hn : n.toNat ≠ 0 := fun h => by rw [h, Nat.log2_zero] at hl; omega
    have hu : Nat.log2 n.toNat < 64 := (Nat.log2_lt hn).mpr n.isLt
    exact .inr ⟨by omega, (Nat.le_log2 hn).mp (by omega)⟩

theorem split_eq (h₁ : 1 ≤ sr.toNat) (h₂ : sr.toNat < 32) :
    split n sr = some (n <<< (64 - sr.toNat), n >>> sr.toNat) := by
  have hs : (32 - sr).toNat = 32 - sr.toNat := by bv_omega
  have hl {x : SuInt} : shl x (32 - sr) = some (x <<< (32 - sr.toNat)) := by
    rw [shl, if_pos (by bv_omega), hs]
  have hr {x : SuInt} : shr x sr = some (x >>> sr.toNat) := if_pos (by bv_omega)
  simp only [split, hl, hr, Option.bind_eq_bind, Option.bind_some, Option.pure_def]
  conv_rhs => rw [← halves n, shiftRight_append (by omega), shiftLeft_append_of_le (by omega)]
  rw [show 64 - sr.toNat - 32 = 32 - sr.toNat by omega]

end Divide

section Cases

variable {u v x y : SuInt}

theorem result (hq : q.toNat = n.toNat / d.toNat) (hr : r.toNat = n.toNat % d.toNat) :
    some (q, r) = some (n / d, n % d) := by
  rw [BitVec.eq_of_toNat_eq (hq.trans (BitVec.toNat_udiv ..).symm),
    BitVec.eq_of_toNat_eq (hr.trans (BitVec.toNat_umod ..).symm)]

theorem toNat_setWidth {x : SuInt} : (x.setWidth 64).toNat = x.toNat :=
  BitVec.toNat_setWidth_of_le (by decide)

theorem div_append_zero : (u ++ v : DuInt).toNat / (x ++ (0 : SuInt) : DuInt).toNat = u.toNat / x.toNat ∧
    (u ++ v : DuInt).toNat % (x ++ (0 : SuInt) : DuInt).toNat = u.toNat % x.toNat * 2 ^ 32 + v.toNat := by
  have hn : (u ++ v : DuInt).toNat = u.toNat * 2 ^ 32 + v.toNat := toNat_append
  have hd : (x ++ (0 : SuInt) : DuInt).toNat = x.toNat * 2 ^ 32 := by
    have h : (x ++ (0 : SuInt) : DuInt).toNat = x.toNat * 2 ^ 32 + (0 : SuInt).toNat := toNat_append
    simpa using h
  have hv := v.isLt
  have hq : (u.toNat * 2 ^ 32 + v.toNat) / 2 ^ 32 = u.toNat := by omega
  rw [hn, hd, Nat.mul_comm x.toNat, ← Nat.div_div_eq_div_mul, Nat.mod_mul, hq]
  exact ⟨rfl, by omega⟩

-- The test for a power of two finds the exponent.
theorem pow_of_and_eq_zero (h₀ : x ≠ 0) (h : x &&& (x - 1) = 0) : x.toNat = 2 ^ (ctzsi2 x).toNat := by
  have hx : x.toNat ≠ 0 := fun he => h₀ <| BitVec.eq_of_toNat_eq he
  have hs : (x - 1).toNat = x.toNat - 1 := by bv_omega
  have hp : x.toNat.isPowerOfTwo := by
    rw [← Nat.and_sub_one_eq_zero_iff_isPowerOfTwo hx, ← hs, ← BitVec.toNat_and, h]
    rfl
  obtain ⟨j, hj⟩ := hp
  obtain ⟨k, hk⟩ := ctzsi2_eq h₀
  have hc : (2 * k + 1).Coprime (2 ^ j) := .pow_right j <| by
    rw [Nat.Coprime, Nat.gcd_comm, Nat.gcd_rec, Nat.mul_add_mod]
    rfl
  have ho : 2 * k + 1 = 1 := hc.eq_one_of_dvd <| hj ▸ hk ▸ Nat.dvd_mul_right _ _
  rw [hk, ho, Nat.one_mul]

theorem and_sub_one {c : Nat} (h : x.toNat = 2 ^ c) : (y &&& (x - 1)).toNat = y.toNat % x.toNat := by
  have hx := Nat.two_pow_pos c
  have hs : (x - 1).toNat = x.toNat - 1 := by bv_omega
  rw [BitVec.toNat_and, hs, h, Nat.and_two_pow_sub_one_eq_mod]

theorem log2_high (h : n.toNat = u.toNat * 2 ^ 32 + v.toNat) (hu : u ≠ 0) :
    Nat.log2 n.toNat = Nat.log2 u.toNat + 32 := by
  have hp : 1 ≤ u.toNat := Nat.pos_of_ne_zero fun h => hu <| BitVec.eq_of_toNat_eq h
  have hv := v.isLt
  have hd : n.toNat / 2 ^ 32 = u.toNat := by omega
  have hl : Nat.log2 (n.toNat / 2 ^ 32) + 32 = _ := Zeros.Leading.log2_div (by omega)
  rw [← hl, hd]

end Cases

section Udivmoddi4

theorem udivmoddi4_zero : udivmoddi4 n 0 = none := by
  have hl : (low (0 : DuInt) : SuInt) = 0 := rfl
  have hh : (high (0 : DuInt) : SuInt) = 0 := rfl
  have hm {x : SuInt} : mod x 0 = none := if_pos rfl
  rw [udivmoddi4, hl, hh]
  dsimp only
  rw [hm, hm, if_pos rfl, if_pos rfl, if_pos rfl]
  split_ifs <;> rfl

-- The three ways in which the registers are set up for the loop.
section Setup

variable {nh nl : SuInt} (hd : d ≠ 0) (hl : Nat.log2 d.toNat ≤ Nat.log2 n.toNat)
  (hk : sr.toNat = Nat.log2 n.toNat - Nat.log2 d.toNat + 1)

include hd hl hk

theorem setup_split (h : sr.toNat < 32) :
    ((split n sr).bind fun x => some (divide d sr x.1 x.2)) = some (n / d, n % d) := by
  rw [split_eq (by omega) h, Option.bind_some, divide_log hd hl hk (by omega)]

theorem setup_word (hn : nh ++ nl = n) (h : sr = 32) :
    divide d sr (nl ++ (0 : SuInt)) ((0 : SuInt) ++ nh) = (n / d, n % d) := by
  have hs : sr.toNat = 32 := by rw [h]; rfl
  have hq : nl ++ (0 : SuInt) = n <<< (64 - sr.toNat) := by
    rw [hs, ← hn, shiftLeft_append_of_le (by decide)]
    simp
  have hr : (0 : SuInt) ++ nh = n >>> sr.toNat := by
    rw [hs, ← hn, shiftRight_append_of_le (by decide)]
    simp
  rw [hq, hr, divide_log hd hl hk (by omega)]

theorem setup_long (hn : nh ++ nl = n) (h : 32 < sr.toNat) (h' : sr.toNat < 64) :
    ((shl nl (64 - sr)).bind fun qLow => (shl nh (64 - sr)).bind fun x => (shr nl (sr - 32)).bind fun y =>
      (shr nh (sr - 32)).bind fun rLow => some (divide d sr ((x ||| y) ++ qLow) ((0 : SuInt) ++ rLow))) =
    some (n / d, n % d) := by
  have hs : (64 - sr).toNat = 64 - sr.toNat := by bv_omega
  have hs' : (sr - 32).toNat = sr.toNat - 32 := by bv_omega
  have hl' {x : SuInt} : shl x (64 - sr) = some (x <<< (64 - sr.toNat)) := by
    rw [shl, if_pos (by bv_omega), hs]
  have hr {x : SuInt} : shr x (sr - 32) = some (x >>> (sr.toNat - 32)) := by
    rw [shr, if_pos (by bv_omega), hs']
  have hq : (nh <<< (64 - sr.toNat) ||| nl >>> (sr.toNat - 32)) ++ nl <<< (64 - sr.toNat) = n <<< (64 - sr.toNat) := by
    rw [← hn, shiftLeft_append (by omega), show 32 - (64 - sr.toNat) = sr.toNat - 32 by omega]
  have hr' : (0 : SuInt) ++ nh >>> (sr.toNat - 32) = n >>> sr.toNat := by
    rw [← hn, shiftRight_append_of_le (by omega)]
  simp only [hl', hr, Option.bind_some]
  rw [hq, hr', divide_log hd hl hk (by omega)]

end Setup

-- The number of rounds, from the zeros of the halves.
section Rounds

variable {u v x y : SuInt} (hn : n.toNat = u.toNat * 2 ^ 32 + v.toNat) (hu : u ≠ 0)

include hn hu

theorem rounds_low (hd : d.toNat = y.toNat) (hy : 2 ≤ y.toNat) : Nat.log2 d.toNat ≤ Nat.log2 n.toNat ∧
    (1 + 32 + clzsi2 y - clzsi2 u).toNat = Nat.log2 n.toNat - Nat.log2 d.toNat + 1 ∧
    (1 + 32 + clzsi2 y - clzsi2 u).toNat < 64 := by
  have hl := log2_high hn hu
  have hcu := clzsi2_eq hu
  have hcy : (clzsi2 y).toNat + _ = 31 := clzsi2_eq fun h => by rw [h] at hy; exact absurd hy (by decide)
  have hly : 1 ≤ Nat.log2 y.toNat := (Nat.le_log2 (by omega)).mpr hy
  rw [hl, hd]
  bv_omega

variable (hd : d.toNat = x.toNat * 2 ^ 32 + y.toNat) (hx : x ≠ 0)

include hd hx

theorem rounds_high (h : (clzsi2 x - clzsi2 u).toNat ≤ 31) : Nat.log2 d.toNat ≤ Nat.log2 n.toNat ∧
    (clzsi2 x - clzsi2 u + 1).toNat = Nat.log2 n.toNat - Nat.log2 d.toNat + 1 := by
  have hln := log2_high hn hu
  have hld := log2_high hd hx
  have hcu := clzsi2_eq hu
  have hcx := clzsi2_eq hx
  bv_omega

theorem lt_of_clz (h : 31 < (clzsi2 x - clzsi2 u).toNat) : n.toNat < d.toNat := by
  have hln := log2_high hn hu
  have hld := log2_high hd hx
  have hcu := clzsi2_eq hu
  have hcx := clzsi2_eq hx
  have hlt : Nat.log2 n.toNat + 1 ≤ Nat.log2 d.toNat := by bv_omega
  have hd₀ : d.toNat ≠ 0 := fun h => by rw [h, Nat.log2_zero] at hld; omega
  calc n.toNat
    _ < 2 ^ (Nat.log2 n.toNat + 1) := Nat.lt_log2_self
    _ ≤ 2 ^ Nat.log2 d.toNat       := Nat.pow_le_pow_right (by decide) hlt
    _ ≤ d.toNat                    := Nat.log2_self_le hd₀

-- The largest difference belongs to a divisor that is a power of two.
theorem clz_ne (h : x &&& (x - 1) ≠ 0) : (clzsi2 x - clzsi2 u).toNat ≠ 31 := by
  intro he
  have hcu := clzsi2_eq hu
  have hcx := clzsi2_eq hx
  have hl : Nat.log2 x.toNat = 0 := by
    have := (rounds_high hn hu hd hx he.le).left
    bv_omega
  have hx₀ : x.toNat ≠ 0 := fun h => hx <| BitVec.eq_of_toNat_eq h
  have h₁ := ((Nat.log2_eq_iff hx₀).mp hl).right
  refine h ?_
  rw [show x = 1 by bv_omega]
  rfl

end Rounds

theorem result_lt (h : n.toNat < d.toNat) : some (0, n) = some (n / d, n % d) :=
  result (Nat.div_eq_of_lt h).symm (Nat.mod_eq_of_lt h).symm

theorem shr_ctzsi2 {x y : SuInt} (h : y ≠ 0) : shr x (ctzsi2 y) = some (x >>> (ctzsi2 y).toNat) :=
  if_pos <| BitVec.lt_def.mpr <| ctzsi2_lt h

-- The special cases.
section Special

variable {nh nl dh dl : SuInt} (hnh : nh ++ nl = n)

include hnh

theorem special_low (hd : d.toNat = dl.toNat) (h₀ : nh = 0) (h : dl ≠ 0) :
    ((mod nl dl).bind fun rem => (div nl dl).bind fun q => some (q.setWidth 64, rem.setWidth 64)) =
    some (n / d, n % d) := by
  have hn : n.toNat = nh.toNat * 2 ^ 32 + nl.toNat := hnh ▸ toNat_append
  rw [show nh.toNat = 0 from h₀ ▸ rfl, Nat.zero_mul, Nat.zero_add] at hn
  rw [mod, if_neg h, div, if_neg h, Option.bind_some, Option.bind_some]
  exact result (by rw [toNat_setWidth, hn, hd, BitVec.toNat_udiv]) (by rw [toNat_setWidth, hn, hd, BitVec.toNat_umod])

theorem special_high (hdh : dh ++ (0 : SuInt) = d) (h₀ : nl = 0) (h : dh ≠ 0) :
    ((mod nh dh).bind fun rHigh => (div nh dh).bind fun q => some (q.setWidth 64, rHigh ++ (0 : SuInt))) =
    some (n / d, n % d) := by
  have ⟨hq, hr⟩ := div_append_zero (u := nh) (v := nl) (x := dh)
  rw [hnh, hdh] at hq hr
  rw [mod, if_neg h, div, if_neg h, Option.bind_some, Option.bind_some]
  refine result ?_ ?_
  case refine_1 => rw [toNat_setWidth, hq, BitVec.toNat_udiv]
  case refine_2 =>
    rw [hr, h₀, ← BitVec.toNat_umod]
    exact toNat_append

theorem special_power_high (hdh : dh ++ (0 : SuInt) = d) (h : dh ≠ 0) (hp : dh &&& (dh - 1) = 0) :
    ((shr nh (ctzsi2 dh)).bind fun q => some (q.setWidth 64, (nh &&& (dh - 1)) ++ nl)) = some (n / d, n % d) := by
  have ⟨hq, hr⟩ := div_append_zero (u := nh) (v := nl) (x := dh)
  have hc := pow_of_and_eq_zero h hp
  rw [hnh, hdh] at hq hr
  rw [shr_ctzsi2 h, Option.bind_some]
  refine result ?_ ?_
  case refine_1 => rw [toNat_setWidth, hq, BitVec.toNat_ushiftRight, Nat.shiftRight_eq_div_pow, hc]
  case refine_2 => rw [hr, ← and_sub_one hc]; exact toNat_append

-- The remainder for a power of two is found in the low half.
theorem rem_low (hd : d.toNat = dl.toNat) (h : dl ≠ 0) (hp : dl &&& (dl - 1) = 0) :
    ((nl &&& (dl - 1)).setWidth 64).toNat = n.toNat % d.toNat := by
  have hc := pow_of_and_eq_zero h hp
  have hn : n.toNat = nh.toNat * 2 ^ 32 + nl.toNat := hnh ▸ toNat_append
  have hdv : 2 ^ (ctzsi2 dl).toNat ∣ 2 ^ 32 := Nat.pow_dvd_pow 2 (ctzsi2_lt h).le
  rw [toNat_setWidth, and_sub_one hc, hn, hd, hc, Nat.add_mod, Nat.mod_eq_zero_of_dvd (Nat.dvd_mul_left_of_dvd hdv _),
    Nat.zero_add, Nat.mod_mod]

theorem special_power_low (hd : d.toNat = dl.toNat) (h : dl ≠ 0) (h₁ : dl ≠ 1) (hp : dl &&& (dl - 1) = 0) :
    ((shr nh (ctzsi2 dl)).bind fun qHigh => (shl nh (32 - ctzsi2 dl)).bind fun x => (shr nl (ctzsi2 dl)).bind fun y =>
      some (qHigh ++ (x ||| y), (nl &&& (dl - 1)).setWidth 64)) = some (n / d, n % d) := by
  have hc := pow_of_and_eq_zero h hp
  have hl := ctzsi2_lt h
  have hs : (32 - ctzsi2 dl).toNat = 32 - (ctzsi2 dl).toNat := by bv_omega
  have hz : (ctzsi2 dl).toNat ≠ 0 := fun hz => h₁ <| BitVec.eq_of_toNat_eq <| by rw [hc, hz]; rfl
  rw [shr_ctzsi2 h, shl, if_pos (by bv_omega), shr_ctzsi2 h, Option.bind_some, Option.bind_some, Option.bind_some, hs,
    ← shiftRight_append hl.le, hnh]
  refine result ?_ (rem_low hnh hd h hp)
  rw [BitVec.toNat_ushiftRight, Nat.shiftRight_eq_div_pow, hd, hc]

end Special

theorem udivmoddi4_eq (hd : d ≠ 0) : udivmoddi4 n d = some (n / d, n % d) := by
  have hn := toNat_halves (a := n)
  have hdt := toNat_halves (a := d)
  have hnh := halves n
  have hdh := halves d
  rw [udivmoddi4]
  generalize (low n : SuInt) = nl at *
  generalize (high n : SuInt) = nh at *
  generalize (low d : SuInt) = dl at *
  generalize (high d : SuInt) = dh at *
  dsimp only
  have hlow (h : dh = 0) : d.toNat = dl.toNat := by rw [hdt, h]; simp
  have htwo (h : dl ≠ 0) (hp : dl &&& (dl - 1) ≠ 0) : 2 ≤ dl.toNat := by
    have h₁ : dl ≠ 1 := fun h₁ => hp <| by rw [h₁]; rfl
    bv_omega
  split_ifs
  case pos hn₀ hd₀ => exact special_low hnh (hlow hd₀) hn₀ fun h => hd <| by rw [← hdh, hd₀, h]; rfl
  case neg hn₀ hd₀ =>
    have hnl : nl.setWidth 64 = n := BitVec.eq_of_toNat_eq <| by rw [toNat_setWidth, hn, hn₀]; simp
    rw [hnl]
    exact result_lt (by bv_omega)
  case pos hd₁ hd₀ => exact absurd (by rw [← hdh, hd₁, hd₀]; rfl) hd
  case pos hd₁ hd₀ hn₁ => exact special_high hnh (hd₁ ▸ hdh) hn₁ hd₀
  case pos hd₁ hd₀ _ hp => exact special_power_high hnh (hd₁ ▸ hdh) hd₀ hp
  case pos hn₀ _ hd₀ _ hp h =>
    have hne := clz_ne hn hn₀ hdt hd₀ hp
    exact result_lt <| lt_of_clz hn hn₀ hdt hd₀ (by bv_omega)
  case neg hn₀ _ hd₀ _ hp h =>
    have ⟨hl, hk⟩ := rounds_high hn hn₀ hdt hd₀ (by bv_omega)
    exact setup_split hd hl hk (by bv_omega)
  case pos hd₀ hd₁ hp h =>
    exact result (by rw [hlow hd₁, h]; exact (Nat.div_one _).symm) (rem_low hnh (hlow hd₁) hd₀ hp)
  case neg hd₁ hd₀ hp h => exact special_power_low hnh (hlow hd₀) hd₁ h hp
  case pos hn₀ hd₁ hd₀ hp h =>
    have ⟨hl, hk, _⟩ := rounds_low hn hn₀ (hlow hd₀) (htwo hd₁ hp)
    rw [setup_word hd hl hk hnh h]
  case pos hn₀ hd₁ hd₀ hp _ h =>
    have ⟨hl, hk, _⟩ := rounds_low hn hn₀ (hlow hd₀) (htwo hd₁ hp)
    exact setup_split hd hl hk h
  case neg hn₀ hd₁ hd₀ hp h h' =>
    have ⟨hl, hk, hu⟩ := rounds_low hn hn₀ (hlow hd₀) (htwo hd₁ hp)
    exact setup_long hd hl hk hnh (by bv_omega) hu
  case pos hn₀ _ hd₀ h => exact result_lt <| lt_of_clz hn hn₀ hdt hd₀ h
  case pos hn₀ _ hd₀ h h' =>
    have ⟨hl, hk⟩ := rounds_high hn hn₀ hdt hd₀ (by bv_omega)
    rw [setup_word hd hl hk hnh h']
  case neg hn₀ _ hd₀ h h' =>
    have ⟨hl, hk⟩ := rounds_high hn hn₀ hdt hd₀ (by bv_omega)
    exact setup_split hd hl hk (by bv_omega)

-- There is no result for a divisor that is zero only.
theorem unsigned_division (n d : DuInt) :
    udivmoddi4 n d = (if d = 0 then none else some (n / d, n % d)) ∧
    udivdi3 n d = (if d = 0 then none else some (n / d)) ∧
    umoddi3 n d = (if d = 0 then none else some (n % d)) := by
  rw [udivdi3, umoddi3]
  by_cases h : d = 0
  case pos =>
    rw [h, udivmoddi4_zero]
    exact ⟨rfl, rfl, rfl⟩
  case neg =>
    rw [udivmoddi4_eq h, if_neg h, if_neg h, if_neg h]
    exact ⟨rfl, rfl, rfl⟩

end Udivmoddi4

-- The functions on signed numbers take off the signs and put them back.
section Signed

variable {a b x : DiInt} {c : Bool}

-- The mask is all ones for a negative number.
def mask (c : Bool) : DiInt :=
  if c then BitVec.allOnes 64 else 0

theorem mask_msb : x.sshiftRight 63 = mask x.msb :=
  sshiftRight_eq

theorem xor_sub_mask : (x ^^^ mask c) - mask c = if c then -x else x := by
  cases c
  case false => simp [mask]
  case true  =>
    rw [mask, if_pos rfl, if_pos rfl, BitVec.xor_allOnes, BitVec.neg_eq_not_add, BitVec.sub_eq_add_neg]
    rfl

theorem sub_eq_of_fits {y : DiInt} (h : Signed.Fits 64 (x.toInt - y.toInt)) : sub x y = some (x - y) := by
  rw [sub, Signed.sub, Signed.checked_of_fits h, Option.map_some]
  exact congrArg some <| BitVec.eq_of_toInt_eq <| by rw [BitVec.toInt_ofInt, BitVec.toInt_sub]

theorem mul_eq_of_fits {y : DiInt} (h : Signed.Fits 64 (x.toInt * y.toInt)) : mul x y = some (x * y) := by
  rw [mul, Signed.mul, Signed.checked_of_fits h, Option.map_some]
  exact congrArg some <| BitVec.eq_of_toInt_eq <| by rw [BitVec.toInt_ofInt, BitVec.toInt_mul]

-- The sign of the least number cannot be changed.
theorem sub_mask : sub (x ^^^ mask c) (mask c) =
    if c ∧ x = BitVec.intMin 64 then none else some (if c then -x else x) := by
  have hl : -2 ^ 63 ≤ x.toInt := BitVec.le_toInt x
  have hu : x.toInt < 2 ^ 63 := BitVec.toInt_lt
  rw [← xor_sub_mask]
  cases c
  case false =>
    have hx : (x ^^^ mask false).toInt - (mask false).toInt = x.toInt := by simp [mask]
    rw [if_neg (by simp)]
    exact sub_eq_of_fits <| by rw [hx]; exact ⟨hl, hu⟩
  case true =>
    have hx : (x ^^^ mask true).toInt - (mask true).toInt = -x.toInt := by
      rw [mask, if_pos rfl, BitVec.xor_allOnes, BitVec.toInt_allOnes, BitVec.toInt_eq_toNat_cond,
        BitVec.toInt_eq_toNat_cond, BitVec.toNat_not]
      have := x.isLt
      split_ifs <;> omega
    have hm : x = BitVec.intMin 64 ↔ x.toInt = -2 ^ 63 := by
      rw [← BitVec.toInt_inj, BitVec.toInt_intMin_of_pos (by decide)]
    by_cases h : x = BitVec.intMin 64
    case pos =>
      rw [if_pos ⟨rfl, h⟩, sub, Signed.sub, Signed.checked_of_not_fits, Option.map_none]
      rw [hx, hm.mp h]
      exact fun h => absurd h.right (by decide)
    case neg =>
      have hn := mt hm.mpr h
      rw [if_neg fun hc => h hc.right]
      exact sub_eq_of_fits <| by rw [hx]; exact ⟨by omega, by omega⟩

theorem mask_xor {c' : Bool} : mask c ^^^ mask c' = mask (c ^^ c') := by
  cases c <;> cases c' <;> simp [mask]

theorem sub_mask_msb : sub (x ^^^ mask x.msb) (mask x.msb) =
    if x = BitVec.intMin 64 then none else some x.abs := by
  have hm : x = BitVec.intMin 64 → x.msb = true := fun h => h ▸ rfl
  rw [sub_mask, BitVec.abs]
  exact if_congr ⟨And.right, fun h => ⟨hm h, h⟩⟩ rfl rfl

theorem sdiv_eq_abs : a.sdiv b = if a.msb ^^ b.msb then -(a.abs / b.abs) else a.abs / b.abs := by
  rw [BitVec.sdiv_eq, BitVec.abs, BitVec.abs]
  cases a.msb <;> cases b.msb <;> rfl

theorem srem_eq_abs : a.srem b = if a.msb then -(a.abs % b.abs) else a.abs % b.abs := by
  rw [BitVec.srem_eq, BitVec.abs, BitVec.abs]
  cases a.msb <;> cases b.msb <;> rfl

theorem abs_ne_zero (h : b ≠ 0) : b.abs ≠ 0 := by
  rw [BitVec.abs]
  split
  case isTrue => simpa using h
  case isFalse => exact h

-- The operands whose signs can be changed, and that have a quotient.
abbrev Defined (a b : DiInt) : Prop :=
  b ≠ 0 ∧ a ≠ BitVec.intMin 64 ∧ b ≠ BitVec.intMin 64

theorem divdi3_eq : divdi3 a b = if Defined a b then some (a.sdiv b) else none := by
  simp only [divdi3, mask_msb, mask_xor, sub_mask_msb]
  by_cases ha : a = BitVec.intMin 64
  case pos =>
    have h : ¬Defined a b := fun h => h.right.left ha
    rw [if_pos ha, if_neg h]
    rfl
  by_cases hb : b = BitVec.intMin 64
  case pos =>
    have h : ¬Defined a b := fun h => h.right.right hb
    rw [if_neg ha, if_pos hb, if_neg h]
    rfl
  rw [if_neg ha, if_neg hb]
  simp only [Option.bind_eq_bind, Option.bind_some, Option.pure_def]
  by_cases h₀ : b = 0
  case pos => rw [if_neg fun h => h.left h₀, h₀, show (0 : DiInt).abs = 0 from rfl, udivmoddi4_zero, Option.bind_none]
  case neg => rw [if_pos ⟨h₀, ha, hb⟩, udivmoddi4_eq (abs_ne_zero h₀), Option.bind_some, xor_sub_mask, sdiv_eq_abs]

theorem abs_umod_ne (h₀ : b ≠ 0) (h : b ≠ BitVec.intMin 64) : a % b.abs ≠ BitVec.intMin 64 := by
  intro he
  have hm : b.abs.msb = false := by rw [BitVec.msb_abs]; simp [h]
  have hb : b.abs.toNat < 2 ^ 63 := by
    rw [BitVec.msb_eq_decide] at hm
    simpa using hm
  have hp : 0 < b.abs.toNat := Nat.pos_of_ne_zero fun h => abs_ne_zero h₀ <| BitVec.eq_of_toNat_eq h
  have hr := Nat.mod_lt a.toNat hp
  rw [← BitVec.toNat_umod, he, BitVec.toNat_intMin_of_pos (by decide)] at hr
  omega

theorem moddi3_eq : moddi3 a b = if Defined a b then some (a.srem b) else none := by
  simp only [moddi3, mask_msb, sub_mask_msb]
  by_cases hb : b = BitVec.intMin 64
  case pos =>
    have h : ¬Defined a b := fun h => h.right.right hb
    rw [if_pos hb, if_neg h]
    rfl
  by_cases ha : a = BitVec.intMin 64
  case pos =>
    have h : ¬Defined a b := fun h => h.right.left ha
    rw [if_neg hb, if_pos ha, if_neg h]
    rfl
  rw [if_neg hb, if_neg ha]
  simp only [Option.bind_eq_bind, Option.bind_some]
  by_cases h₀ : b = 0
  case pos => rw [if_neg fun h => h.left h₀, h₀, show (0 : DiInt).abs = 0 from rfl, udivmoddi4_zero, Option.bind_none]
  case neg =>
    rw [if_pos ⟨h₀, ha, hb⟩, udivmoddi4_eq (abs_ne_zero h₀), Option.bind_some, sub_mask, srem_eq_abs]
    exact if_neg fun h => abs_umod_ne h₀ hb h.right

-- The product of the quotient and the divisor is no greater than the dividend.
theorem fits_sdiv_mul (h : Defined a b) : Signed.Fits 64 ((a.sdiv b).toInt * b.toInt) := by
  have hq : (a.sdiv b).toInt = a.toInt.tdiv b.toInt := BitVec.toInt_sdiv_of_ne_or_ne a b (.inl h.right.left)
  have hn : ((a.sdiv b).toInt * b.toInt).natAbs ≤ a.toInt.natAbs := by
    rw [hq, Int.natAbs_mul, Int.natAbs_tdiv]
    exact Nat.div_mul_le_self ..
  have hl : -2 ^ 63 ≤ a.toInt := BitVec.le_toInt a
  have hu : a.toInt < 2 ^ 63 := BitVec.toInt_lt
  have hm : a.toInt ≠ -2 ^ 63 := fun he => h.right.left <| BitVec.eq_of_toInt_eq <| by
    rw [he, BitVec.toInt_intMin_of_pos (by decide)]
  exact ⟨by omega, by omega⟩

theorem divmoddi4_eq : divmoddi4 a b = if Defined a b then some (a.sdiv b, a.srem b) else none := by
  rw [divmoddi4, divdi3_eq]
  by_cases h : Defined a b
  case neg =>
    rw [if_neg h, if_neg h]
    rfl
  have hf := fits_sdiv_mul h
  have hm : (a.sdiv b * b).toInt = (a.sdiv b).toInt * b.toInt := by
    rw [BitVec.toInt_mul, ← BitVec.toInt_ofInt, BitVec.toInt_ofInt_eq_self (by decide) hf.left hf.right]
  have hr : a.toInt - (a.sdiv b * b).toInt = (a.srem b).toInt := by
    rw [hm, BitVec.toInt_srem, BitVec.toInt_sdiv_of_ne_or_ne a b (.inl h.right.left), Int.tdiv_mul_self]
    omega
  rw [if_pos h, if_pos h]
  simp only [Option.bind_eq_bind, Option.bind_some, Option.pure_def, mul_eq_of_fits hf]
  rw [sub, Signed.sub, hr, Signed.checked_of_fits ⟨BitVec.le_toInt _, BitVec.toInt_lt⟩, Option.map_some,
    BitVec.ofInt_toInt, Option.bind_some]

theorem signed_division (a b : DiInt) :
    divdi3 a b = (if Defined a b then some (a.sdiv b) else none) ∧
    moddi3 a b = (if Defined a b then some (a.srem b) else none) ∧
    divmoddi4 a b = (if Defined a b then some (a.sdiv b, a.srem b) else none) :=
  ⟨divdi3_eq, moddi3_eq, divmoddi4_eq⟩

end Signed
end Am.Klib.Int64
