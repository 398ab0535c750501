import Mathlib.Logic.Function.Basic
import Mathlib.Data.List.Infix

-- Trees of tables in a store: every entry of an inner table refers to the table of a longer path, and the
-- entries of the last tables hold the values of a map.

namespace Tables

open Function (update)

variable {P K E X R Y : Type}

-- The paths of the keys `X` of a map. They lead through `depth` tables.
structure Shape (K X : Type) where
  path : X → List K
  depth : Nat
  length_path : ∀ x, (path x).length = depth
  path_inj : Function.Injective path

namespace Shape

-- The paths of the tables.
def Inner (S : Shape K X) (ks : List K) : Prop :=
  ∃ x, ks <+: S.path x ∧ ks.length < S.depth

variable {S : Shape K X} {ks js : List K} {k : K} {x : X}

theorem inner_of_append (h : S.path x = ks ++ k :: js) : S.Inner ks := by
  have := S.length_path x
  rw [h, List.length_append, List.length_cons] at this
  exact ⟨x, ⟨_, h.symm⟩, by omega⟩

theorem Inner.not_path (h : S.Inner ks) : S.path x ≠ ks := by
  have ⟨_, _, hl⟩ := h
  intro he
  rw [← he, S.length_path] at hl
  exact Nat.lt_irrefl _ hl

end Shape

-- A family of maps with one value changed.
def assign {A B : Type} [DecidableEq R] [DecidableEq A] (F : R → A → Option B) (r : R) (a : A) (b : Option B) :
    R → A → Option B :=
  update F r (update (F r) a b)

section Assign

variable {A B : Type} [DecidableEq R] [DecidableEq A] {F : R → A → Option B} {r r' : R} {a a' : A} {b : Option B}

@[simp]
theorem assign_self : assign F r a b r a = b := by
  rw [assign, Function.update_self, Function.update_self]

theorem assign_of_ne (h : ¬(r' = r ∧ a' = a)) : assign F r a b r' a' = F r' a' := by
  rw [assign]
  by_cases hr : r' = r
  case pos =>
    subst hr
    rw [Function.update_self, Function.update_of_ne fun he => h ⟨rfl, he⟩]
  case neg => rw [Function.update_of_ne hr]

theorem assign_cases {v : B} (h : assign F r a b r' a' = some v) :
    r' = r ∧ a' = a ∧ b = some v ∨ ¬(r' = r ∧ a' = a) ∧ F r' a' = some v := by
  by_cases he : r' = r ∧ a' = a
  case pos =>
    obtain ⟨rfl, rfl⟩ := he
    rw [assign_self] at h
    exact .inl ⟨rfl, rfl, h⟩
  case neg => rw [assign_of_ne he] at h; exact .inr ⟨he, h⟩

end Assign

-- `T` has the table of each root and path, `V` the value of each root and key. `table` and `leaf` say how the
-- entries of the store `m` hold them.
structure Forest (S : Shape K X) (table : Option P → E → Prop) (leaf : Option Y → E → Prop) (m : P → K → E)
    (T : R → List K → Option P) (V : R → X → Option Y) : Prop where
  child : ∀ {r ks t k}, T r ks = some t → S.Inner (ks ++ [k]) → table (T r (ks ++ [k])) (m t k)
  value : ∀ {r ks t k x}, T r ks = some t → S.path x = ks ++ [k] → leaf (V r x) (m t k)
  closed : ∀ {r ks k}, T r ks = none → T r (ks ++ [k]) = none
  absent : ∀ {r ks k x}, T r ks = none → S.path x = ks ++ [k] → V r x = none
  inner : ∀ {r ks t}, T r ks = some t → S.Inner ks
  inj : ∀ {r r' ks ks' t}, T r ks = some t → T r' ks' = some t → r = r' ∧ ks = ks'

namespace Forest

variable {S : Shape K X} {table : Option P → E → Prop} {leaf : Option Y → E → Prop} {m m' : P → K → E}
variable {T : R → List K → Option P} {V : R → X → Option Y} {r : R} {ks js : List K} {k : K} {t p : P} {x : X}

-- Behind an entry without a table there are no tables.
theorem none_append (f : Forest S table leaf m T V) (h : T r ks = none) : T r (ks ++ js) = none := by
  induction js generalizing ks
  case nil => rwa [List.append_nil]
  case cons k js hi =>
    have := hi (f.closed (k := k) h)
    rwa [List.append_assoc] at this

theorem absent_of_append (f : Forest S table leaf m T V) (h : T r ks = none) (hp : S.path x = ks ++ k :: js) :
    V r x = none := by
  have hj : k :: js ≠ [] := List.cons_ne_nil k js
  have hp : S.path x = ks ++ (k :: js).dropLast ++ [(k :: js).getLast hj] := by
    rw [hp, List.append_assoc, List.dropLast_append_getLast]
  exact f.absent (f.none_append h) hp

-- The entries of the tables are all that matters.
theorem congr (f : Forest S table leaf m T V) (h : ∀ {r ks t k}, T r ks = some t → m' t k = m t k) :
    Forest S table leaf m' T V where
  child ht hi := h ht ▸ f.child ht hi
  value ht hp := h ht ▸ f.value ht hp
  closed := f.closed
  absent := f.absent
  inner := f.inner
  inj := f.inj

-- Every entry of a table apart from one keeps its value.
def Except (m m' : P → K → E) (T : R → List K → Option P) (t : P) (k : K) : Prop :=
  ∀ {r js t' j}, T r js = some t' → ¬(t' = t ∧ j = k) → m' t' j = m t' j

section Entry

variable (f : Forest S table leaf m T V) (ht : T r ks = some t)
include ht

theorem slot_of_eq {r' : R} {t' : P} {j : K} (ht' : T r' js = some t') (h : r' = r ∧ js ++ [j] = ks ++ [k]) :
    t' = t ∧ j = k := by
  obtain ⟨rfl, h⟩ := h
  have ⟨hj, hk⟩ := List.append_inj' h rfl
  subst hj
  exact ⟨Option.some.inj (ht'.symm.trans ht), List.singleton_inj.mp hk⟩

include f

theorem eq_of_slot {r' : R} {t' : P} {j : K} (ht' : T r' js = some t') (h : t' = t ∧ j = k) :
    r' = r ∧ js ++ [j] = ks ++ [k] := by
  obtain ⟨rfl, rfl⟩ := h
  have ⟨hr, hj⟩ := f.inj ht' ht
  exact ⟨hr, by rw [hj]⟩

variable [DecidableEq R]

-- A value is stored.
theorem put [DecidableEq X] {v : Option Y} (hp : S.path x = ks ++ [k]) (he : leaf v (m' t k))
    (hm : Except m m' T t k) : Forest S table leaf m' T (assign V r x v) where
  child {r' js t' j} ht' hi := by
    have hne : ¬(t' = t ∧ j = k) := fun h => hi.not_path (hp.trans (f.eq_of_slot ht ht' h).right.symm)
    rw [hm ht' hne]
    exact f.child ht' hi
  value {r' js t' j y} ht' hy := by
    by_cases h : t' = t ∧ j = k
    case pos =>
      have ⟨hr, hj⟩ := f.eq_of_slot ht ht' h
      have hx := S.path_inj ((hy.trans hj).trans hp.symm)
      rw [hr, hx, h.left, h.right, assign_self]
      exact he
    case neg =>
      rw [hm ht' h, assign_of_ne fun ⟨hr, hx⟩ => h (slot_of_eq ht ht' ⟨hr, by rw [← hy, hx, hp]⟩)]
      exact f.value ht' hy
  closed := f.closed
  absent {r' js j y} hn hy := by
    refine (assign_of_ne fun ⟨hr, hx⟩ => ?_).trans (f.absent hn hy)
    rw [hx, hp] at hy
    rw [hr, ← (List.append_inj' hy rfl).left, ht] at hn
    cases hn
  inner := f.inner
  inj := f.inj

-- A table is put under an entry without a table.
theorem grow [DecidableEq K] (hi : S.Inner (ks ++ [k])) (hn : T r (ks ++ [k]) = none) (hp : ∀ {r js}, T r js ≠ some p)
    (he : table (some p) (m' t k)) (hm : Except m m' T t k)
    (hc : ∀ {j}, S.Inner (ks ++ [k] ++ [j]) → table none (m' p j))
    (hl : ∀ {j x}, S.path x = ks ++ [k] ++ [j] → leaf none (m' p j)) :
    Forest S table leaf m' (assign T r (ks ++ [k]) (some p)) V where
  child {r' js t' j} ht' hj := by
    obtain ⟨rfl, rfl, hp'⟩ | ⟨hne, ht'⟩ := assign_cases ht'
    case inl =>
      cases hp'
      rw [assign_of_ne (by simp), f.closed hn]
      exact hc hj
    case inr =>
      by_cases h : t' = t ∧ j = k
      case pos =>
        have ⟨hr, hj⟩ := f.eq_of_slot ht ht' h
        rw [hr, hj, assign_self, h.left, h.right]
        exact he
      case neg =>
        rw [hm ht' h, assign_of_ne fun he => h (slot_of_eq ht ht' he)]
        exact f.child ht' hj
  value {r' js t' j y} ht' hy := by
    obtain ⟨rfl, rfl, hp'⟩ | ⟨hne, ht'⟩ := assign_cases ht'
    case inl =>
      cases hp'
      rw [f.absent_of_append hn hy]
      exact hl hy
    case inr =>
      have hne : ¬(t' = t ∧ j = k) := fun h => hi.not_path (hy.trans (f.eq_of_slot ht ht' h).right)
      rw [hm ht' hne]
      exact f.value ht' hy
  closed {r' js j} hn' := by
    have hne : ¬(r' = r ∧ js = ks ++ [k]) := fun ⟨hr, hj⟩ => by rw [hr, hj, assign_self] at hn'; cases hn'
    rw [assign_of_ne hne] at hn'
    refine (assign_of_ne fun ⟨hr, hj⟩ => ?_).trans (f.closed hn')
    rw [hr, (List.append_inj' hj rfl).left, ht] at hn'
    cases hn'
  absent {r' js j y} hn' hy := by
    have hne : ¬(r' = r ∧ js = ks ++ [k]) := fun ⟨hr, hj⟩ => by rw [hr, hj, assign_self] at hn'; cases hn'
    rw [assign_of_ne hne] at hn'
    exact f.absent hn' hy
  inner ht' := by
    obtain ⟨_, rfl, _⟩ | ⟨_, ht'⟩ := assign_cases ht'
    case inl => exact hi
    case inr => exact f.inner ht'
  inj ht₁ ht₂ := by
    obtain ⟨rfl, rfl, h₁⟩ | ⟨_, h₁⟩ := assign_cases ht₁ <;> obtain ⟨rfl, rfl, h₂⟩ | ⟨_, h₂⟩ := assign_cases ht₂
    case inl.inl => exact ⟨rfl, rfl⟩
    case inl.inr => exact absurd (h₂.trans h₁.symm) hp
    case inr.inl => exact absurd (h₁.trans h₂.symm) hp
    case inr.inr => exact f.inj h₁ h₂

end Entry

section Plant

variable [DecidableEq R] {r' : R}

-- Tables with a new one for a root, which loses those that it had.
def replant (T : R → List K → Option P) (r : R) (p : P) : R → List K → Option P :=
  update T r fun | [] => some p | _ => none

@[simp]
theorem replant_nil : replant T r p r [] = some p := by
  rw [replant, Function.update_self]

@[simp]
theorem replant_cons : replant T r p r (k :: ks) = none := by
  rw [replant, Function.update_self]

theorem replant_of_ne (h : r' ≠ r) : replant T r p r' = T r' :=
  Function.update_of_ne h ..

theorem replant_cases (h : replant T r p r' ks = some t) : r' = r ∧ ks = [] ∧ t = p ∨ r' ≠ r ∧ T r' ks = some t := by
  by_cases he : r' = r
  case pos =>
    subst he
    cases ks
    case nil => exact .inl ⟨rfl, rfl, (Option.some.inj (replant_nil.symm.trans h)).symm⟩
    case cons => cases replant_cons.symm.trans h
  case neg => rw [replant_of_ne he] at h; exact .inr ⟨he, h⟩

theorem plant (f : Forest S table leaf m T V) (hi : S.Inner []) (hp : ∀ {r js}, T r js ≠ some p)
    (hm : ∀ {r js t j}, T r js = some t → m' t j = m t j) (hc : ∀ {j}, S.Inner [j] → table none (m' p j))
    (hl : ∀ {j x}, S.path x = [j] → leaf none (m' p j)) :
    Forest S table leaf m' (replant T r p) (update V r fun _ => none) where
  child ht hj := by
    obtain ⟨rfl, rfl, rfl⟩ | ⟨hne, ht⟩ := replant_cases ht
    case inl => rw [List.nil_append, replant_cons]; exact hc hj
    case inr => rw [replant_of_ne hne, hm ht]; exact f.child ht hj
  value ht hy := by
    obtain ⟨rfl, rfl, rfl⟩ | ⟨hne, ht⟩ := replant_cases ht
    case inl => rw [Function.update_self]; exact hl hy
    case inr => rw [Function.update_of_ne hne, hm ht]; exact f.value ht hy
  closed {r' js j} hn := by
    by_cases he : r' = r
    case pos =>
      subst he
      cases js
      case nil => cases replant_nil.symm.trans hn
      case cons => exact replant_cons
    case neg =>
      rw [replant_of_ne he] at hn ⊢
      exact f.closed hn
  absent {r' js j y} hn hy := by
    by_cases he : r' = r
    case pos => rw [he, Function.update_self]
    case neg =>
      rw [replant_of_ne he] at hn
      rw [Function.update_of_ne he]
      exact f.absent hn hy
  inner ht := by
    obtain ⟨_, rfl, _⟩ | ⟨_, ht⟩ := replant_cases ht
    case inl => exact hi
    case inr => exact f.inner ht
  inj ht₁ ht₂ := by
    obtain ⟨rfl, rfl, h₁⟩ | ⟨_, h₁⟩ := replant_cases ht₁ <;> obtain ⟨rfl, rfl, h₂⟩ | ⟨_, h₂⟩ := replant_cases ht₂
    case inl.inl => exact ⟨rfl, rfl⟩
    case inl.inr => exact absurd (h₁ ▸ h₂) hp
    case inr.inl => exact absurd (h₂ ▸ h₁) hp
    case inr.inr => exact f.inj h₁ h₂

end Plant

end Forest
end Tables
