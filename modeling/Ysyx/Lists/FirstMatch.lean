import Mathlib.Data.List.Basic
import Mathlib.Data.List.Perm.Basic

-- Lookup of the first match in a list in which no two elements match together.

namespace FirstMatch

variable {α : Type} {p : α → Bool} {l l' : List α}

theorem length_filter_le_one (h : l.Pairwise fun x y => ¬(p x = true ∧ p y = true)) : (l.filter p).length ≤ 1 := by
  have hp := h.filter p
  match hf : l.filter p with
  | [] | [x] => simp
  | x :: y :: rest =>
    have hx : x ∈ l.filter p := by simp [hf]
    have hy : y ∈ l.filter p := by simp [hf]
    rw [hf, List.pairwise_cons] at hp
    exact absurd ⟨(List.mem_filter.mp hx).right, (List.mem_filter.mp hy).right⟩ (hp.left y (by simp))

-- The match does not depend on the order of the list.
theorem find?_perm (h : l.Pairwise fun x y => ¬(p x = true ∧ p y = true)) (hp : l'.Perm l) :
    l'.find? p = l.find? p := by
  have hl := length_filter_le_one h
  have hf := hp.filter p
  rw [← List.head?_filter, ← List.head?_filter]
  generalize l.filter p = matching at hl hf
  match matching with
  | []          => rw [List.perm_nil.mp hf]
  | [x]         => rw [List.perm_singleton.mp hf]
  | _ :: _ :: _ => simp at hl

end FirstMatch
