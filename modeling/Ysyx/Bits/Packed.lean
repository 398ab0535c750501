import Ysyx.Bits.Pattern
import Mathlib.Logic.Function.Basic

-- Vectors of digits packed into one word, as `{x[n-1], …, x[0]}`.

namespace Bits

variable {w n : Nat}

def pack : {n : Nat} → (Fin n → BitVec w) → BitVec (n * w)
  | 0,     _ => 0
  | n + 1, x => (x (Fin.last n) ++ pack fun i => x i.castSucc).cast (by rw [Nat.succ_mul, Nat.add_comm])

theorem getLsbD_pack {x : Fin n → BitVec w} {i : Fin n} {k : Nat} (hk : k < w) :
    (pack x).getLsbD (w * i + k) = (x i).getLsbD k := by
  induction n
  case zero => exact i.elim0
  case succ n hi =>
    rw [pack, BitVec.getLsbD_cast, BitVec.getLsbD_append]
    cases i using Fin.lastCases
    case last =>
      have : ¬w * (Fin.last n : Nat) + k < n * w := by simp [Nat.mul_comm n]
      rw [if_neg this, Fin.val_last, Nat.mul_comm, Nat.add_sub_cancel_left]
    case cast i =>
      have : w * (i.castSucc : Nat) + k < n * w := calc
        w * i + k < w * i + w := Nat.add_lt_add_left hk _
        _         = (i + 1) * w := by rw [Nat.succ_mul, Nat.mul_comm]
        _         ≤ n * w := Nat.mul_le_mul_right _ i.isLt
      rw [if_pos this]
      exact hi

@[simp] theorem digit_pack {x : Fin n → BitVec w} {i : Fin n} : digit w (pack x) i = x i := by
  ext k hk
  rw [← BitVec.getLsbD_eq_getElem, ← BitVec.getLsbD_eq_getElem, getLsbD_digit hk, getLsbD_pack hk]

@[simp] theorem pack_digit {x : BitVec (n * w)} : pack (fun i : Fin n => digit w x i) = x := by
  refine BitVec.eq_of_getLsbD_eq fun j hj => ?_
  have hw : 0 < w := Nat.pos_of_lt_mul_left hj
  have hn : j / w < n := Nat.div_lt_of_lt_mul <| by rwa [Nat.mul_comm]
  have hm := Nat.mod_lt j hw
  have := getLsbD_pack (x := fun i : Fin n => digit w x i) (i := ⟨j / w, hn⟩) hm
  rwa [getLsbD_digit hm, Nat.div_add_mod] at this

-- The or of a list of words.
def orAll (l : List (BitVec w)) : BitVec w :=
  l.foldr (· ||| ·) 0

theorem getLsbD_orAll {l : List (BitVec w)} {k : Nat} :
    (orAll l).getLsbD k = true ↔ ∃ x ∈ l, x.getLsbD k = true := by
  induction l
  case nil => simp [orAll]
  case cons hi => simpa [orAll] using or_congr_right hi

end Bits
