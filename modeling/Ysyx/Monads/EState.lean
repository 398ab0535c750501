import Mathlib.Logic.Basic

-- Programs over a state that may fail: how they are taken apart, and what they leave unchanged.

namespace EState

variable {ε σ τ α β : Type} {x : EStateM ε σ α} {f : α → EStateM ε σ β} {s s' : σ} {v : α} {w : β} {p : σ → τ}

section Results

theorem bind_of_ok (h : x s = .ok v s') : (x >>= f) s = f v s' := by
  simp [bind, EStateM.bind, h]

theorem bind_of_error {e : ε} (h : x s = .error e s') : (x >>= f) s = .error e s' := by
  simp [bind, EStateM.bind, h]

theorem bind_congr {y : EStateM ε σ α} (h : x s = y s') : (x >>= f) s = (y >>= f) s' := by
  simp [bind, EStateM.bind, h]

theorem bind_ok_iff : (x >>= f) s = .ok w s' ↔ ∃ v s₁, x s = .ok v s₁ ∧ f v s₁ = .ok w s' := by
  cases h : x s
  case ok v s₁ =>
    rw [bind_of_ok h]
    exact ⟨fun hf => ⟨v, s₁, rfl, hf⟩, fun ⟨_, _, he, hf⟩ => by cases he; exact hf⟩
  case error =>
    rw [bind_of_error h]
    exact ⟨nofun, nofun⟩

theorem bind_error_iff {e : ε} : (x >>= f) s = .error e s' ↔
    x s = .error e s' ∨ ∃ v s₁, x s = .ok v s₁ ∧ f v s₁ = .error e s' := by
  cases h : x s
  case ok v s₁ =>
    rw [bind_of_ok h]
    refine ⟨fun hf => .inr ⟨v, s₁, rfl, hf⟩, fun hf => ?_⟩
    obtain ⟨_, _, he, hf⟩ := hf.resolve_left nofun
    cases he
    exact hf
  case error =>
    rw [bind_of_error h]
    exact ⟨fun hf => by cases hf; exact .inl rfl, fun hf => by cases hf.resolve_right nofun; rfl⟩

theorem discard_bind {y : EStateM ε σ β} : (discard x >>= fun _ => y) s = (x >>= fun _ => y) s := by
  have h : (discard x) s = match x s with | .ok _ s' => .ok .unit s' | .error e s' => .error e s' := rfl
  cases hx : x s
  case ok =>
    rw [hx] at h
    rw [bind_of_ok h, bind_of_ok hx]
  case error =>
    rw [hx] at h
    rw [bind_of_error h, bind_of_error hx]

theorem ite_run {c : Prop} [Decidable c] {x y : EStateM ε σ α} :
    (if c then x else y) s = if c then x s else y s :=
  apply_ite (fun x : EStateM ε σ α => x s) c x y

theorem get_bind {f : σ → EStateM ε σ β} : (get >>= f) s = f s s := (rfl)

end Results

-- Nothing that `p` looks at has changed when `x` succeeds.
def Keeps (p : σ → τ) (x : EStateM ε σ α) : Prop :=
  ∀ s v s', x s = .ok v s' → p s' = p s

namespace Keeps

theorem pure : Keeps p (pure v : EStateM ε σ α) := by
  intro s _ s' h
  cases h
  rfl

theorem throw {e : ε} : Keeps p (throw e : EStateM ε σ α) :=
  nofun

theorem bind (hx : Keeps p x) (hf : ∀ v, Keeps p (f v)) : Keeps p (x >>= f) := by
  intro s w s' h
  have ⟨v, s₁, h₁, h₂⟩ := bind_ok_iff.mp h
  rw [hf v s₁ w s' h₂, hx s v s₁ h₁]

theorem get_bind {f : σ → EStateM ε σ β} (h : ∀ s, Keeps p (f s)) : Keeps p (get >>= f) :=
  fun s w s' he => h s s w s' he

theorem modify {g : σ → σ} (h : ∀ s, p (g s) = p s) : Keeps p (modify g : EStateM ε σ PUnit) := by
  intro s _ s' he
  cases he
  exact h s

end Keeps
end EState
