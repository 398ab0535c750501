import Mathlib.Data.List.Induction
import Mathlib.Tactic.Common

-- Patterns of digits and wildcards, and the pairs of a key and a mask that test for them.

namespace Bits

variable {w W n s j : Nat} {c : Option (BitVec w)} {p : List (Option (BitVec w))} {x y : BitVec W}

-- The `j`-th digit of `w` bits, counted from the least significant one.
def digit (w : Nat) (x : BitVec W) (j : Nat) : BitVec w :=
  x.extractLsb' (w * j) w

theorem digit_shiftRight : digit w (x >>> w) j = digit w x (j + 1) := by
  ext i hi
  simp only [digit, BitVec.getElem_extractLsb', BitVec.getLsbD_ushiftRight]
  congr 1
  rw [Nat.mul_add]
  omega

theorem getLsbD_digit {i : Nat} (h : i < w) : (digit w x j).getLsbD i = x.getLsbD (w * j + i) := by
  simp [digit, h]

-- A pattern lists its digits with the most significant one first, where `none` stands for any digit.
def Matches (p : List (Option (BitVec w))) (x : BitVec W) : Prop :=
  ∀ i (hi : i < p.length), p.get ⟨i, hi⟩ = none ∨ p.get ⟨i, hi⟩ = some (digit w x (p.length - 1 - i))

theorem matches_nil : Matches ([] : List (Option (BitVec w))) x :=
  fun _ hi => absurd hi (Nat.not_lt_zero _)

theorem matches_snoc : Matches (p ++ [c]) x ↔ Matches p (x >>> w) ∧ (c = none ∨ c = some (digit w x 0)) := by
  simp only [Matches, List.get_eq_getElem, List.length_append, List.length_singleton]
  have hd i (hi : i < p.length) : digit w (x >>> w) (p.length - 1 - i) = digit w x (p.length + 1 - 1 - i) := by
    rw [digit_shiftRight]
    congr 1
    omega
  constructor
  case mp =>
    refine fun h => ⟨fun i hi => ?_, ?_⟩
    case refine_1 =>
      have := h i (by omega)
      rwa [List.getElem_append_left hi, ← hd i hi] at this
    case refine_2 =>
      have := h p.length (by omega)
      simpa using this
  case mpr =>
    intro ⟨h, hc⟩ i hi
    by_cases he : i < p.length
    case pos =>
      rw [List.getElem_append_left he, ← hd i he]
      exact h i he
    case neg =>
      obtain rfl : i = p.length := by omega
      simpa using hc

-- A word passes the test if it agrees with the key wherever the mask has a one.
structure Test (W : Nat) where
  key  : BitVec W
  mask : BitVec W

namespace Test

variable {t : Test W}

def Accepts (t : Test W) (x : BitVec W) : Prop :=
  x &&& t.mask = t.key

theorem accepts_iff : t.Accepts x ↔ ∀ i, (x.getLsbD i && t.mask.getLsbD i) = t.key.getLsbD i := by
  rw [Accepts, BitVec.eq_of_getLsbD_eq_iff]
  simp only [BitVec.getLsbD_and]
  refine ⟨fun h i => ?_, fun h i _ => h i⟩
  by_cases hi : i < W
  case pos => exact h i hi
  case neg =>
    have hn : W ≤ i := by omega
    simp [BitVec.getLsbD_of_ge _ i hn]

def empty : Test W :=
  ⟨0, 0⟩

theorem empty_accepts : (empty : Test W).Accepts x := by
  simp [Accepts, empty]

-- The test for one more digit on the less significant side.
def push (t : Test W) (c : Option (BitVec w)) : Test W where
  key  := t.key <<< w ||| c.elim 0 (·.setWidth W)
  mask := t.mask <<< w ||| c.elim 0 fun _ => (BitVec.allOnes w).setWidth W

-- Nothing from bit `n` upwards is tested.
def Below (n : Nat) (t : Test W) : Prop :=
  ∀ i, n ≤ i → t.key.getLsbD i = false ∧ t.mask.getLsbD i = false

-- Nothing below bit `s` is tested.
def From (s : Nat) (t : Test W) : Prop :=
  ∀ i, i < s → t.key.getLsbD i = false ∧ t.mask.getLsbD i = false

theorem empty_below : (empty : Test W).Below n := by
  simp [Below, empty]

theorem empty_from : (empty : Test W).From s := by
  simp [From, empty]

theorem push_key (i : Nat) : (t.push c).key.getLsbD i =
    (decide (i < W) && (if i < w then c.any (·.getLsbD i) else t.key.getLsbD (i - w))) := by
  have hs (hw : i < W) : i - w < W := by omega
  cases c <;> by_cases hi : i < w <;> by_cases hw : i < W <;> simp [push, hi, hw, hs, Nat.le_of_not_lt]

theorem push_mask (i : Nat) : (t.push c).mask.getLsbD i =
    (decide (i < W) && (if i < w then c.isSome else t.mask.getLsbD (i - w))) := by
  have hs (hw : i < W) : i - w < W := by omega
  cases c <;> by_cases hi : i < w <;> by_cases hw : i < W <;> simp [push, hi, hw, hs, Nat.le_of_not_lt]

theorem Below.push (h : t.Below n) : (t.push c).Below (n + w) := by
  intro i hi
  have ⟨hk, hm⟩ := h (i - w) (by omega)
  simp [push_key, push_mask, hk, hm, show ¬i < w by omega]

theorem From.push_none (h : t.From s) : (t.push (none : Option (BitVec w))).From (s + w) := by
  intro i hi
  by_cases hw : i < w
  case pos => simp [push_key, push_mask, hw]
  case neg =>
    have ⟨hk, hm⟩ := h (i - w) (by omega)
    simp [push_key, push_mask, hk, hm, hw]

theorem push_accepts_iff (h : t.Below n) (hn : n + w ≤ W) :
    (t.push c).Accepts x ↔ t.Accepts (x >>> w) ∧ (c = none ∨ c = some (digit w x 0)) := by
  simp only [accepts_iff, push_key, push_mask, BitVec.getLsbD_ushiftRight]
  have low : (c = none ∨ c = some (digit w x 0)) ↔
      ∀ i < w, (x.getLsbD i && c.isSome) = c.any (·.getLsbD i) := by
    cases c
    case none => simp
    case some d =>
      simp only [reduceCtorEq, false_or, Option.some.injEq, Option.isSome_some, Option.any_some, Bool.and_true]
      rw [eq_comm, BitVec.eq_of_getLsbD_eq_iff]
      refine forall₂_congr fun i hi => ?_
      rw [getLsbD_digit hi, Nat.mul_zero, Nat.zero_add]
  rw [low]
  constructor
  case mp =>
    refine fun ha => ⟨fun i => ?_, fun i hi => ?_⟩
    case refine_1 =>
      by_cases hi : w + i < W
      case pos => simpa [hi, show ¬w + i < w by omega] using ha (w + i)
      case neg => simp [h i (by omega)]
    case refine_2 => simpa [hi, show i < W by omega] using ha i
  case mpr =>
    intro ⟨ha, hl⟩ i
    by_cases hi : i < W
    case neg => simp [hi]
    case pos =>
      by_cases hw : i < w
      case pos => simpa [hi, hw] using hl i hw
      case neg => simpa [hi, hw, show w + (i - w) = i by omega] using ha (i - w)

-- A test of the bits from `s` on can be carried out on the shifted word.
theorem shift_accepts_iff (h : t.From s) :
    Accepts ⟨t.key >>> s, t.mask >>> s⟩ (x >>> s) ↔ t.Accepts x := by
  simp only [accepts_iff, BitVec.getLsbD_ushiftRight]
  refine ⟨fun ha i => ?_, fun ha i => ha (s + i)⟩
  by_cases hi : i < s
  case pos => simp [h i hi]
  case neg =>
    have := ha (i - s)
    rwa [show s + (i - s) = i by omega] at this

-- The test that a pattern stands for.
def ofPattern (p : List (Option (BitVec w))) : Test W :=
  p.foldl push empty

@[simp] theorem ofPattern_snoc : (ofPattern (p ++ [c]) : Test W) = (ofPattern p).push c := by
  simp [ofPattern]

theorem ofPattern_below : (ofPattern p : Test W).Below (w * p.length) := by
  induction p using List.reverseRecOn
  case nil => exact empty_below
  case append_singleton p c hi =>
    rw [ofPattern_snoc, List.length_append, List.length_singleton, Nat.mul_add, Nat.mul_one]
    exact hi.push

theorem ofPattern_accepts_iff (h : w * p.length ≤ W) : (ofPattern p).Accepts x ↔ Matches p x := by
  induction p using List.reverseRecOn generalizing x
  case nil => simp [matches_nil, ofPattern, empty_accepts]
  case append_singleton p c hi =>
    rw [List.length_append, List.length_singleton, Nat.mul_add, Nat.mul_one] at h
    rw [ofPattern_snoc, push_accepts_iff ofPattern_below h, matches_snoc, hi (by omega)]

end Test
end Bits
