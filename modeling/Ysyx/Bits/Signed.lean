import Mathlib.Algebra.Group.Int.Defs
import Mathlib.Order.Basic

-- Signed arithmetic of a width in which an overflow is undefined.

namespace Signed

variable {w : Nat} {x y : Int}

abbrev Fits (w : Nat) (x : Int) : Prop :=
  -2 ^ (w - 1) ≤ x ∧ x < 2 ^ (w - 1)

def checked (w : Nat) (x : Int) : Option Int :=
  if Fits w x then some x else none

def add (w : Nat) (x y : Int) : Option Int := checked w (x + y)
def sub (w : Nat) (x y : Int) : Option Int := checked w (x - y)
def mul (w : Nat) (x y : Int) : Option Int := checked w (x * y)

theorem checked_of_fits (h : Fits w x) : checked w x = some x :=
  if_pos h

theorem checked_of_not_fits (h : ¬Fits w x) : checked w x = none :=
  if_neg h

end Signed
