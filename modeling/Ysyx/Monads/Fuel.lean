import Mathlib.Order.Lattice
import Mathlib.Order.Nat

-- Programs with loops that may not end. A program is given fuel, and has no result if it runs out of it.

abbrev Fuel := ReaderT Nat Option

namespace Fuel

variable {σ α β : Type} {x : Fuel α} {f : α → Fuel β} {v v' : α} {w : β} {n : Nat}

-- Each round takes some fuel away.
def loop (c : σ → Bool) (body : σ → Fuel σ) : σ → Fuel σ
  | _, 0     => none
  | s, n + 1 => if c s then (body s n).bind fun s' => loop c body s' n else some s

-- A program that does not end does not go on.
theorem bind_eq_none (h : x n = none) : (x >>= f) n = none :=
  congrArg (·.bind fun v => f v n) h

-- The program ends with `v`, from some fuel on.
def Yields (x : Fuel α) (v : α) : Prop :=
  ∃ k, ∀ n, x n = if k ≤ n then some v else none

namespace Yields

theorem pure : Yields (pure v) v :=
  ⟨0, fun _ => rfl⟩

theorem bind (hx : Yields x v) (hf : Yields (f v) w) : Yields (x >>= f) w := by
  have ⟨k, hx⟩ := hx
  have ⟨l, hf⟩ := hf
  refine ⟨max k l, fun n => ?_⟩
  have hb : (x >>= f) n = (x n).bind fun v => f v n := rfl
  rw [hb, hx]
  by_cases hk : k ≤ n
  case pos =>
    rw [if_pos hk, Option.bind_some, hf]
    simp only [sup_le_iff, hk, true_and]
  case neg =>
    rw [if_neg hk, if_neg fun h => hk <| (le_max_left k l).trans h]
    rfl

theorem eq (h : Yields x v) (hn : x n = some v') : v' = v := by
  have ⟨k, h⟩ := h
  rw [h] at hn
  split at hn
  case isTrue => exact (Option.some.inj hn).symm
  case isFalse => cases hn

theorem unique (h : Yields x v) (h' : Yields x v') : v' = v := by
  have ⟨k, h'⟩ := h'
  exact h.eq <| (h' k).trans <| if_pos le_rfl

theorem of_bind (h : Yields x v) (hn : (x >>= f) n = some w) : f v n = some w := by
  cases hx : x n
  case none => rw [bind_eq_none hx] at hn; cases hn
  case some v' =>
    rw [← h.eq hx]
    exact (congrArg (·.bind fun v => f v n) hx).symm.trans hn

-- There is a result, and it is the only one.
theorem exists_iff {p : α → Prop} (h : Yields x v) : (∃ n v', x n = some v' ∧ p v') ↔ p v := by
  constructor
  case mp =>
    intro ⟨n, v', hn, hp⟩
    rwa [h.eq hn] at hp
  case mpr =>
    intro hp
    have ⟨k, h⟩ := h
    exact ⟨k, v, (h k).trans <| if_pos le_rfl, hp⟩

section Loop

variable {c : σ → Bool} {body : σ → Fuel σ} {s s' r : σ}

theorem loop_done (h : c s = false) : Yields (loop c body s) s := by
  refine ⟨1, fun n => ?_⟩
  cases n
  case zero => rfl
  case succ n =>
    rw [loop, h, if_neg Bool.false_ne_true, if_pos (Nat.le_add_left 1 n)]

theorem loop_step (h : c s = true) (hb : Yields (body s) s') (hl : Yields (loop c body s') r) :
    Yields (loop c body s) r := by
  have ⟨k, hs⟩ := hb.bind hl
  refine ⟨k + 1, fun n => ?_⟩
  cases n
  case zero => rfl
  case succ n =>
    rw [loop, h, if_pos rfl]
    refine (hs n).trans ?_
    simp only [Nat.succ_le_succ_iff]

-- The loop passes through the states `g 0` to `g n`.
theorem loop {g : Nat → σ} (hc : ∀ i < n, c (g i) = true) (hd : c (g n) = false)
    (hb : ∀ i < n, Yields (body (g i)) (g (i + 1))) : Yields (loop c body (g 0)) (g n) := by
  have h : ∀ j k, k + j = n → Yields (Fuel.loop c body (g k)) (g n) := by
    intro j
    induction j
    case zero =>
      intro k hk
      rw [← hk] at hd ⊢
      exact loop_done hd
    case succ j hi =>
      intro k hk
      exact loop_step (hc k (by omega)) (hb k (by omega)) <| hi (k + 1) (by omega)
  exact h n 0 (Nat.zero_add n)

end Loop
end Yields

section Loop

variable {c : σ → Bool} {body : σ → Fuel σ} {s t r : σ}

-- A loop whose condition stays true does not end.
theorem loop_eq_none {I : σ → Prop} (hc : ∀ s, I s → c s = true) (hb : ∀ s n s', I s → body s n = some s' → I s')
    (h : I s) : loop c body s n = none := by
  induction n generalizing s
  case zero => rfl
  case succ n hi =>
    rw [loop, hc s h, if_pos rfl]
    cases hs : body s n
    case none => rfl
    case some s' => exact hi <| hb s n s' h hs

-- The states at which the condition of the loop is tested.
inductive Passes (c : σ → Bool) (body : σ → Fuel σ) (s : σ) : σ → Prop
  | refl : Passes c body s s
  | round {t t' : σ} : Passes c body s t → c t = true → Yields (body t) t' → Passes c body s t'

namespace Passes

-- A loop that ends does so from any state that it passes through.
theorem loop_eq_some (h : Passes c body s t) (hn : loop c body s n = some r) : ∃ k, loop c body t k = some r := by
  induction h
  case refl => exact ⟨n, hn⟩
  case round t t' _ hc hb hi =>
    have ⟨k, hk⟩ := hi
    cases k
    case zero => cases hk
    case succ k =>
      rw [loop, hc, if_pos rfl] at hk
      have ⟨s, hs, hk⟩ := Option.bind_eq_some_iff.mp hk
      exact ⟨k, hb.eq hs ▸ hk⟩

-- The loop passes through no other states than `g 0` to `g n`.
theorem eq {g : Nat → σ} (hd : c (g n) = false) (hb : ∀ i < n, Yields (body (g i)) (g (i + 1)))
    (h : Passes c body (g 0) t) : ∃ i ≤ n, t = g i := by
  induction h
  case refl => exact ⟨0, Nat.zero_le n, rfl⟩
  case round t t' _ hc hy hi =>
    obtain ⟨i, hi, rfl⟩ := hi
    have hn : i ≠ n := fun h => by rw [h, hd] at hc; cases hc
    have hl := Nat.lt_of_le_of_ne hi hn
    exact ⟨i + 1, hl, (hb i hl).unique hy⟩

end Passes
end Loop
end Fuel
