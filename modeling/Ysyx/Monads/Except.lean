-- Computations that may fail, without a state.

namespace Fallible

variable {ε α β : Type} {x : Except ε α} {f : α → Except ε β} {a : α} {b : β}

theorem bind_of_ok (h : x = .ok a) : x >>= f = f a := by
  rw [h]
  rfl

theorem ok_of_bind (h : x >>= f = .ok b) : ∃ a, x = .ok a ∧ f a = .ok b := by
  cases x
  case error => cases h
  case ok a  => exact ⟨a, rfl, h⟩

end Fallible
