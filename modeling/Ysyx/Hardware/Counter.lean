import Mathlib.Data.BitVec
import Mathlib.Logic.Function.Iterate

-- Counters that start again at 1 after a last value, which they find by an equality test.

namespace Counter

variable {w last n : Nat} {x : BitVec w}

def next (last : Nat) (x : BitVec w) : BitVec w :=
  if x.toNat = last then 1 else x + 1

-- How many steps there are to the last value. A value above it overflows first.
def remaining (last : Nat) (x : BitVec w) : Nat :=
  (BitVec.ofNat w last - x).toNat

theorem toNat_eq_of_remaining (hl : last < 2 ^ w) (h : remaining last x = 0) : x.toNat = last := by
  have hx : BitVec.ofNat w last - x = 0 := BitVec.eq_of_toNat_eq h
  rw [← sub_eq_zero.mp hx, BitVec.toNat_ofNat, Nat.mod_eq_of_lt hl]

theorem toNat_one (h : n + 1 < 2 ^ w) : (1 : BitVec w).toNat = 1 :=
  Nat.mod_eq_of_lt (Nat.lt_of_le_of_lt (Nat.le_add_left 1 n) h)

theorem remaining_next (h : remaining last x = n + 1) : remaining last (next last x) = n := by
  have hx : x.toNat ≠ last := by
    rintro rfl
    simp [remaining] at h
  rw [remaining] at h
  have h₁ : (1 : BitVec w).toNat = 1 := toNat_one (h ▸ BitVec.isLt (BitVec.ofNat w last - x))
  have hle : 1 ≤ BitVec.ofNat w last - x := by
    rw [BitVec.le_def, h₁, h]
    exact Nat.le_add_left 1 n
  rw [remaining, next, if_neg hx, sub_add_eq_sub_sub, BitVec.toNat_sub_of_le hle, h, h₁, Nat.add_sub_cancel]

theorem iterate_remaining (hl : last < 2 ^ w) : (next last)^[remaining last x + 1] x = 1 := by
  generalize h : remaining last x = n
  induction n generalizing x
  case zero => exact if_pos (toNat_eq_of_remaining hl h)
  case succ n hn =>
    rw [Function.iterate_succ_apply]
    exact hn (remaining_next h)

-- From any value the counter reaches 1.
theorem exists_iterate_eq_one (last : Nat) (hl : last < 2 ^ w) (x : BitVec w) : ∃ n ≤ 2 ^ w, (next last)^[n] x = 1 :=
  ⟨_, BitVec.isLt _, iterate_remaining hl⟩

-- From 1 it counts the steps.
theorem toNat_iterate_one (hp : 0 < last) (hl : last < 2 ^ w) :
    ((next last)^[n] (1 : BitVec w)).toNat = n % last + 1 := by
  have h₁ : (1 : BitVec w).toNat = 1 := toNat_one (n := last - 1) (by omega)
  induction n
  case zero => simpa using h₁
  case succ n hn =>
    have hm := Nat.mod_lt n hp
    rw [Function.iterate_succ_apply', next, hn, ← Nat.mod_add_mod]
    split
    case isTrue he => rw [he, Nat.mod_self, h₁]
    case isFalse he =>
      have hs : n % last + 1 < last := by omega
      rw [BitVec.toNat_add, hn, h₁, Nat.mod_eq_of_lt hs, Nat.mod_eq_of_lt (by omega)]

end Counter
