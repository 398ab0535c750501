import Mathlib.Logic.Function.Basic
import Mathlib.Data.List.Induction

-- Functions after a list of assignments to their arguments.

namespace Assign

variable {K V : Type} [DecidableEq K] {f : K → V} {l r : List (K × V)} {k : K} {v : V}

def assign (f : K → V) (l : List (K × V)) : K → V :=
  l.foldl (fun f x => Function.update f x.fst x.snd) f

@[simp] theorem assign_nil : assign f [] = f := (rfl)

theorem assign_append : assign f (l ++ r) = assign (assign f l) r :=
  List.foldl_append

theorem assign_snoc : assign f (l ++ [(k, v)]) = Function.update (assign f l) k v :=
  List.foldl_append

theorem assign_of_not_mem (h : k ∉ l.map (·.fst)) : assign f l k = f k := by
  induction l using List.reverseRecOn
  case nil => rfl
  case append_singleton l x hi =>
    rw [List.map_append, List.mem_append, not_or] at h
    rw [assign_snoc, Function.update_of_ne (by simpa using h.right), hi h.left]

-- The last assignment to an argument counts.
theorem assign_last (h : k ∉ r.map (·.fst)) : assign f (l ++ (k, v) :: r) k = v := by
  rw [List.append_cons, assign_append, assign_of_not_mem h, assign_snoc, Function.update_self]

theorem assign_of_mem (h : (l.map (·.fst)).Nodup) (hm : (k, v) ∈ l) : assign f l k = v := by
  have ⟨l, r, hl⟩ := List.mem_iff_append.mp hm
  subst hl
  rw [List.map_append, List.map_cons, List.nodup_append] at h
  exact assign_last (List.nodup_cons.mp h.right.left).left

end Assign
