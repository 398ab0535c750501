import Mathlib.Data.List.Basic

-- Functions that are overwritten piece by piece. The last piece counts.

namespace Overlay

variable {A B : Type} {m : A → B} {p q : A → Option B} {ps : List (A → Option B)} {a : A} {b : B}

def overlay (m : A → B) (p : A → Option B) : A → B :=
  fun a => (p a).getD (m a)

def overlays (m : A → B) (ps : List (A → Option B)) : A → B :=
  ps.foldl overlay m

-- The value that is there after the pieces `ps`, if one of them has a value.
def Last (ps : List (A → Option B)) (a : A) (b : B) : Prop :=
  ∃ qs p rs, ps = qs ++ p :: rs ∧ p a = some b ∧ ∀ r ∈ rs, r a = none

theorem Last.prepend {qs : List (A → Option B)} (h : Last ps a b) : Last (qs ++ ps) a b := by
  have ⟨rs, p, ss, hs, hp, hn⟩ := h
  exact ⟨qs ++ rs, p, ss, by rw [hs, List.append_assoc], hp, hn⟩

theorem overlays_of_none (h : ∀ p ∈ ps, p a = none) : overlays m ps a = m a := by
  induction ps generalizing m
  case nil => rfl
  case cons p ps hi =>
    have hp : p a = none := h p List.mem_cons_self
    have hs := hi (m := overlay m p) fun q hq => h q <| List.mem_cons_of_mem _ hq
    rw [overlay, hp] at hs
    exact hs

theorem overlays_append {qs : List (A → Option B)} : overlays m (ps ++ qs) = overlays (overlays m ps) qs :=
  List.foldl_append

theorem overlays_of_last (h : Last ps a b) : overlays m ps a = b := by
  have ⟨qs, p, rs, hs, hp, hr⟩ := h
  have hc : overlays m (qs ++ p :: rs) = overlays (overlay (overlays m qs) p) rs := List.foldl_append
  rw [hs, hc, overlays_of_none hr, overlay, hp]
  rfl

theorem last_or_none (ps : List (A → Option B)) (a : A) : (∃ b, Last ps a b) ∨ ∀ p ∈ ps, p a = none := by
  induction ps
  case nil => exact .inr nofun
  case cons p ps hi =>
    cases hi
    case inl h =>
      have ⟨b, qs, q, rs, hs, hq, hr⟩ := h
      exact .inl ⟨b, p :: qs, q, rs, congrArg (p :: ·) hs, hq, hr⟩
    case inr h =>
      cases hp : p a
      case none => exact .inr <| List.forall_mem_cons.mpr ⟨hp, h⟩
      case some b => exact .inl ⟨b, [], p, ps, rfl, hp, h⟩

-- A value stays if and only if no later piece has another one there last.
theorem overlays_eq_iff (h : m a = b) : overlays m ps a = b ↔ ∀ b', Last ps a b' → b' = b := by
  constructor
  case mp =>
    intro ho b' hl
    rw [← ho, overlays_of_last hl]
  case mpr =>
    intro hl
    cases last_or_none ps a
    case inl hs =>
      have ⟨b', hb⟩ := hs
      rw [overlays_of_last hb, hl b' hb]
    case inr hn => rw [overlays_of_none hn, h]

section Range

variable {f : Nat → A → Option B} {n j : Nat}

theorem overlays_range_succ :
    overlays m ((List.range (n + 1)).map f) = overlay (overlays m ((List.range n).map f)) (f n) := by
  rw [List.range_succ, List.map_append, overlays_append]
  rfl

theorem overlays_range_of_none (h : ∀ j < n, f j a = none) : overlays m ((List.range n).map f) a = m a :=
  overlays_of_none <| by simpa using h

-- The only piece that has a value.
theorem overlays_range_of_some (hj : j < n) (hb : f j a = some b) (h : ∀ k < n, k ≠ j → f k a = none) :
    overlays m ((List.range n).map f) a = b := by
  induction n
  case zero => cases hj
  case succ n hi =>
    rw [overlays_range_succ, overlay]
    by_cases hn : n = j
    case pos => rw [hn, hb, Option.getD_some]
    case neg =>
      rw [h n (Nat.lt_succ_self n) hn, Option.getD_none]
      exact hi (by omega) fun k hk => h k (Nat.lt_succ_of_lt hk)

end Range

end Overlay
