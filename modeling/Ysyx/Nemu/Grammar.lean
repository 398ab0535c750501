import Mathlib.Data.Nat.Digits.Defs
import Ysyx.Nemu.Sdb

-- The notation of the numbers that the commands of the debugger take.

namespace Nemu

def White (s : Text) : Prop :=
  ∀ c ∈ s, isspace c = true

-- `s` consists of digits, at least one, and stands for `n`.
def Numeral (base : Nat) (s : Text) (n : Nat) : Prop :=
  s ≠ [] ∧ ∃ ds : List Nat, s.map (digit? base) = ds.map some ∧ n = Nat.ofDigits base ds.reverse

-- The notation of C.
inductive Address : Text → Nat → Prop
  | decimal {c : Byte} {s : Text} {n : Nat} : c ≠ 0x30 → Numeral 10 (c :: s) n → Address (c :: s) n
  | octal {s : Text} {n : Nat} : Numeral 8 (0x30 :: s) n → Address (0x30 :: s) n
  | hexadecimal {x : Byte} {s : Text} {n : Nat} : x = 0x78 ∨ x = 0x58 → Numeral 16 s n → Address (0x30 :: x :: s) n

-- Nothing or a plus.
def Sign (s : Text) : Prop :=
  s = [] ∨ s = [0x2b]

-- The arguments of `si`.
inductive StepText : Text → Nat → Prop
  | mk {w p s w' : Text} {n : Nat} : White w → Sign p → Numeral 10 s n → White w' → 0 < n → n < 2 ^ 64 →
    StepText (w ++ p ++ s ++ w') n

-- The arguments of `x`. A plus separates the numbers as well as a space.
inductive ExamineText : Text → Nat → Nat → Prop
  | mk {w p s u q t w' : Text} {n a : Nat} : White w → Sign p → Numeral 10 s n → White u → Sign q → Address t a →
    White w' → (u ≠ [] ∨ q ≠ []) → 0 < n → n < 2 ^ 64 → a < 2 ^ 32 → ExamineText (w ++ p ++ s ++ u ++ q ++ t ++ w') n a

-- Without arguments `si` executes one instruction.
def StepArgs : Option Text → Nat → Prop
  | none, n      => n = 1
  | some text, n => StepText text n

def ExamineArgs : Option Text → Nat → Nat → Prop
  | none, _, _      => False
  | some text, n, a => ExamineText text n a

end Nemu
