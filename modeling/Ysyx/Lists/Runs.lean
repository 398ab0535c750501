import Mathlib.Data.List.Induction

-- The run of equal elements at the end of a list.

namespace Runs

variable {α : Type} [DecidableEq α] {l : List α} {a b : α} {n : Nat}

-- A run of `k + 1` times `a` is given as `(a, k)`.
def extend (run : Option (α × Nat)) (a : α) : Option (α × Nat) :=
  match run with
  | none        => some (a, 0)
  | some (b, k) => if a = b then some (b, k + 1) else some (a, 0)

def last (l : List α) : Option (α × Nat) :=
  l.foldl extend none

@[simp] theorem last_nil : last ([] : List α) = none := (rfl)

theorem last_snoc : last (l ++ [a]) = extend (last l) a :=
  List.foldl_append

theorem extend_fst {run : Option (α × Nat)} : ∃ k, extend run a = some (a, k) := by
  match run with
  | none        => exact ⟨0, rfl⟩
  | some (b, k) =>
    by_cases h : a = b
    case pos => exact ⟨k + 1, by simp [extend, h]⟩
    case neg => exact ⟨0, by simp [extend, h]⟩

theorem extend_succ {run : Option (α × Nat)} :
    (∃ k, n + 1 ≤ k ∧ extend run a = some (b, k)) ↔ a = b ∧ ∃ k, n ≤ k ∧ run = some (b, k) := by
  match run with
  | none        => simp [extend]
  | some (c, m) => by_cases h : a = c <;> grind [extend]

omit [DecidableEq α] in
theorem replicate_suffix_snoc : List.replicate (n + 1) b <:+ l ++ [a] ↔ a = b ∧ List.replicate n b <:+ l := by
  rw [List.replicate_succ', List.suffix_concat_iff]
  constructor
  case mp =>
    intro h
    have ⟨t, ht, hs⟩ := h.resolve_left (by simp)
    have ⟨he, hb⟩ := List.append_inj' ht rfl
    exact ⟨(List.singleton_inj.mp hb).symm, he ▸ hs⟩
  case mpr =>
    intro ⟨ha, hs⟩
    exact .inr ⟨_, by rw [ha], hs⟩

-- A list ends with `n + 1` times `b` if its last run is at least that long.
theorem replicate_suffix : List.replicate (n + 1) b <:+ l ↔ ∃ k, n ≤ k ∧ last l = some (b, k) := by
  induction l using List.reverseRecOn generalizing n
  case nil => simp
  case append_singleton l a hi =>
    rw [replicate_suffix_snoc, last_snoc]
    cases n
    case zero =>
      have ⟨k, hk⟩ : ∃ k, extend (last l) a = some (a, k) := extend_fst
      simp [hk]
    case succ n => rw [hi, extend_succ]

end Runs
