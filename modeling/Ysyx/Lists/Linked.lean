import Mathlib.Data.List.Basic

-- Linked lists: the cells that are passed when links are followed.

namespace Linked

variable {P : Type} {next next' : P → Option P} {p q r : P} {l l' : List P}

-- The cells from `p` on before `r`.
inductive Path (next : P → Option P) : P → List P → P → Prop
  | nil {p : P} : Path next p [] p
  | cons {p q r : P} {l : List P} : next p = some q → Path next q l r → Path next p (p :: l) r

namespace Path

theorem congr (h : Path next p l r) (he : ∀ q ∈ l, next' q = next q) : Path next' p l r := by
  induction h
  case nil => exact .nil
  case cons hn _ hi =>
    exact .cons ((he _ List.mem_cons_self).trans hn) (hi fun q hq => he q (List.mem_cons_of_mem _ hq))

-- The cells before a cell of the list.
theorem split (h : Path next p l r) (hq : q ∈ l) :
    ∃ l₁ l₂, l = l₁ ++ q :: l₂ ∧ q ∉ l₁ ∧ Path next p l₁ q ∧ Path next q (q :: l₂) r := by
  induction h
  case nil => cases hq
  case cons p s r l hn h hi =>
    by_cases he : q = p
    case pos =>
      subst he
      exact ⟨[], l, rfl, List.not_mem_nil, .nil, .cons hn h⟩
    case neg =>
      have ⟨l₁, l₂, hl, hm, h₁, h₂⟩ := hi ((List.mem_cons.mp hq).resolve_left he)
      refine ⟨p :: l₁, l₂, congrArg _ hl, ?_, .cons hn h₁, h₂⟩
      exact fun hq => hm ((List.mem_cons.mp hq).resolve_left he)

-- A path is a part of every path that ends behind it.
theorem continues (h : Path next p l q) (h' : Path next p l' r) (hr : next r = none) :
    ∃ l'', l' = l ++ l'' ∧ Path next q l'' r := by
  induction h generalizing l'
  case nil => exact ⟨l', rfl, h'⟩
  case cons hn _ hi =>
    cases h'
    case nil => rw [hr] at hn; cases hn
    case cons hn' h' =>
      cases hn.symm.trans hn'
      have ⟨l'', hl, h''⟩ := hi h'
      exact ⟨l'', congrArg _ hl, h''⟩

theorem unique (h : Path next p l r) (h' : Path next p l' r) (hr : next r = none) : l = l' := by
  have ⟨l'', hl, h''⟩ := h.continues h' hr
  cases h''
  case nil => rw [hl, List.append_nil]
  case cons hn _ => rw [hr] at hn; cases hn

-- Links that lead back to their beginning do not lead to an end.
theorem not_of_cycle (h : Path next p (q :: l) p) (hr : next r = none) : ¬Path next p l' r := by
  induction hn : l'.length using Nat.strongRecOn generalizing l'
  case ind n hi =>
    intro h'
    have ⟨l'', hl, h''⟩ := h.continues h' hr
    refine hi l''.length ?_ rfl h''
    rw [← hn, hl, List.length_append, List.length_cons]
    omega

theorem nodup (h : Path next p l r) (hr : next r = none) : l.Nodup := by
  induction h
  case nil => exact List.nodup_nil
  case cons p q r l hn h hi =>
    refine List.nodup_cons.mpr ⟨fun hm => ?_, hi hr⟩
    have ⟨l₁, l₂, _, _, h₁, _⟩ := h.split hm
    exact not_of_cycle (.cons hn h₁) hr (.cons hn h)

end Path
end Linked
