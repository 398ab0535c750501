import Mathlib.Data.List.Basic
import Mathlib.Data.List.Flatten

namespace List

variable {α : Type*} {f : Nat → List α} {n c i k : Nat}

theorem length_flatMap_range (h : ∀ i, (f i).length = c) : ((range n).flatMap f).length = n * c := by
  simp [length_flatMap, h]

-- In a concatenation of `n` blocks of one length `c`, the element `k` of block `i` has index `i * c + k`.
theorem getElem?_flatMap_range (h : ∀ i, (f i).length = c) (hi : i < n) (hk : k < c) :
    ((range n).flatMap f)[i * c + k]? = (f i)[k]? := by
  induction n
  case zero => contradiction
  case succ n hn =>
    rw [range_succ, flatMap_append, flatMap_singleton]
    cases Nat.lt_succ_iff_lt_or_eq.mp hi
    case inl hi =>
      have hl : i * c + k < n * c := calc
        i * c + k < i * c + c := Nat.add_lt_add_left hk _
        _         = (i + 1) * c := (Nat.succ_mul i c).symm
        _         ≤ n * c := Nat.mul_le_mul_right c hi
      rw [getElem?_append_left (by rwa [length_flatMap_range h]), hn hi]
    case inr hi =>
      subst hi
      rw [getElem?_append_right (by simp [length_flatMap_range h]), length_flatMap_range h,
        Nat.add_sub_cancel_left]

theorem range_mul (m n : Nat) : range (m * n) = (range m).flatMap fun i => (range n).map (n * i + ·) := by
  induction m
  case zero => simp
  case succ m hm =>
    rw [Nat.succ_mul, range_add, hm, range_succ, flatMap_append, flatMap_singleton, Nat.mul_comm m n]

-- Only the elements of a window contribute.
theorem flatMap_range_window {g : Nat → List α} (a b c : Nat) (before : ∀ i < a, f i = [])
    (inside : ∀ i < b, f (a + i) = g i) (after : ∀ i < c, f (a + b + i) = []) :
    (range (a + b + c)).flatMap f = (range b).flatMap g := by
  have h₁ : (range a).flatMap f = [] := by simpa using before
  have h₂ : (range b).flatMap (fun i => f (a + i)) = (range b).flatMap g :=
    flatMap_congr fun i hi => inside i (mem_range.mp hi)
  have h₃ : (range c).flatMap (fun i => f (a + b + i)) = [] := by simpa using after
  rw [range_add, range_add, flatMap_append, flatMap_append, flatMap_map, flatMap_map, h₁, h₂, h₃,
    nil_append, append_nil]

-- In a grid of `a + b + c` rows with `a' + b' + c'` columns, only the cells of a window contribute.
theorem filterMap_range_grid {f : Nat → Option α} {g : Nat → Nat → α} (a b c a' b' c' : Nat)
    (inside : ∀ i < b, ∀ j < b', f ((a' + b' + c') * (a + i) + (a' + j)) = some (g i j))
    (outside : ∀ i < a + b + c, ∀ j < a' + b' + c', ¬(a ≤ i ∧ i < a + b) ∨ ¬(a' ≤ j ∧ j < a' + b') →
      f ((a' + b' + c') * i + j) = none) :
    (range ((a + b + c) * (a' + b' + c'))).filterMap f = (range (b * b')).map fun k => g (k / b') (k % b') := by
  have hw : ∀ i < a + b + c, ¬(a ≤ i ∧ i < a + b) →
      ((range (a' + b' + c')).map ((a' + b' + c') * i + ·)).filterMap f = [] := by
    intro i hi hb
    rw [filterMap_map, filterMap_eq_nil_iff]
    exact fun j hj => outside i hi j (mem_range.mp hj) (.inl hb)
  rw [range_mul, filterMap_flatMap, range_mul, map_flatMap]
  refine flatMap_range_window a b c ?before ?inside ?after
  case before => exact fun i hi => hw i (by omega) (by omega)
  case inside =>
    intro i hi
    have hr : (range b').map ((fun k => g (k / b') (k % b')) ∘ (b' * i + ·)) = (range b').map (g i) := by
      refine map_congr_left fun j hj => ?_
      have hj := mem_range.mp hj
      simp only [Function.comp_apply, Nat.mul_add_div (Nat.zero_lt_of_lt hj), Nat.mul_add_mod,
        Nat.div_eq_of_lt hj, Nat.mod_eq_of_lt hj, Nat.add_zero]
    rw [map_map, hr, filterMap_map, filterMap_eq_flatMap_toList, map_eq_flatMap]
    refine flatMap_range_window a' b' c' ?_ ?_ ?_
    · intro j hj
      simp [outside (a + i) (by omega) j (by omega) (.inr (by omega))]
    · intro j hj
      simp [inside i hi j hj]
    · intro j hj
      simp [outside (a + i) (by omega) (a' + b' + j) (by omega) (.inr (by omega))]
  case after => exact fun i hi => hw _ (by omega) (by omega)

end List
