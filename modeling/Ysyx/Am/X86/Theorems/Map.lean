import Ysyx.Am.X86.Theorems.Protect

-- `map` keeps the tables, and changes the entry of its page.

namespace Am.X86

open Function (update)
open Tables (Forest assign)
open EState (bind_ok_iff bind_of_ok get_bind)

variable {A : Arch} {s₀ s s' : State A} {as t pt va pa : Word A} {prot : BitVec 32} {j k index : Nat}
variable {sp : Spaces A} {T : Word A → List Nat → Option (Word A)} {ks : List Nat} {x : Page A}
variable {flags : Word A} {ptinfo ptinfo' : PtInfo A} {ptinfos : List (PtInfo A)}

theorem ptwalk_last : ptwalk va flags [ptinfo] t = pure (t, indexof va ptinfo) := (rfl)

theorem ptwalk_cons : ptwalk va flags (ptinfo :: ptinfo' :: ptinfos) t s =
    if s.mem t (indexof va ptinfo) &&& PTE_P = 0 then
      (pgallocz >>= fun next_page =>
        modify (fun s => s.store t (indexof va ptinfo) (next_page ||| PTE_P ||| flags)) >>= fun _ =>
        ptwalk va flags (ptinfo' :: ptinfos) next_page) s
    else
      ptwalk va flags (ptinfo' :: ptinfos) (baseof (s.mem t (indexof va ptinfo))) s :=
  ite_apply ..

theorem ptwalk_present (hp : s.mem t (indexof va ptinfo) &&& PTE_P ≠ 0) :
    ptwalk va flags (ptinfo :: ptinfo' :: ptinfos) t s =
      ptwalk va flags (ptinfo' :: ptinfos) (baseof (s.mem t (indexof va ptinfo))) s := by
  rw [ptwalk_cons, if_neg hp]

theorem ptwalk_missing {v : Word A × Nat} (hn : s.mem t (indexof va ptinfo) &&& PTE_P = 0)
    (h : ptwalk va flags (ptinfo :: ptinfo' :: ptinfos) t s = .ok v s') : ∃ base pool, s.pool = base :: pool ∧
      ptwalk va flags (ptinfo' :: ptinfos) base
        ((s.alloc base pool).store t (indexof va ptinfo) (base ||| PTE_P ||| flags)) = .ok v s' := by
  rw [ptwalk_cons, if_pos hn] at h
  have ⟨base, s₁, hp, h⟩ := bind_ok_iff.mp h
  have ⟨pool, hs, he⟩ := pgallocz_ok hp
  have ⟨_, s₂, hm, h⟩ := bind_ok_iff.mp h
  cases hm
  rw [he] at h
  exact ⟨base, pool, hs, h⟩

-- The walk makes the tables that are missing, and comes to the entry of the page.
theorem Inv.ptwalk_ok (i : Inv s₀ sp T s) (ht : T as ks = some t) (hx : path x.va = ks ++ ptinfos.map (indexof x.va))
    (h : ptwalk x.va (PTE_W ||| PTE_U) ptinfos t s = .ok (pt, index) s') : ∃ T' ks',
    Inv s₀ sp T' s' ∧ T' as ks' = some pt ∧ path x.va = ks' ++ [index] ∧ s'.spaces = s.spaces ∧
      Gains as T s T' s' := by
  induction ptinfos generalizing s t ks T
  case nil => rw [ptwalk, bug] at h; cases h
  case cons info ptinfos hi =>
    cases ptinfos
    case nil => rw [ptwalk_last] at h; cases h; exact ⟨T, ks, i, ht, hx, rfl, .of_pool rfl⟩
    case cons info' ptinfos =>
      have hx' := path_step hx
      have he := i.entry ht hx
      cases hT : T as (ks ++ [indexof x.va info])
      case none =>
        have hn : s.mem t (indexof x.va info) &&& PTE_P = 0 := by rwa [hT] at he
        have ⟨base, pool, hs, h⟩ := ptwalk_missing hn h
        have g := i.grow ht hT hx hs
        have ⟨T', ks', i', ht', hk, hs', g'⟩ :=
          hi (s := s.grow base pool t (indexof x.va info)) g Tables.assign_self hx' h
        exact ⟨T', ks', i', ht', hk, hs', (i.gains hT hs).trans g'⟩
      case some t' =>
        rw [hT] at he
        have ⟨ha, he⟩ := he
        have hp : s.mem t (indexof x.va info) &&& PTE_P ≠ 0 := he ▸ (table_leads ha).left
        rw [ptwalk_present hp, he, baseof_table ha] at h
        exact hi i hT hx' h

section Space

variable (i : Inv s₀ sp T s) (hs : s.spaces as ≠ none)
include i hs

-- The first table of a space.
theorem Inv.first : ∃ r, T as [] = some r ∧ baseof r = r ∧ s.mem as 0 = r ||| PTE_P ||| PTE_U := by
  have ⟨r, ht, hr⟩ := i.root hs
  exact ⟨r, ht, i.aligned ht, hr⟩

theorem Inv.ptwalk_first : ∃ r, T as [] = some r ∧
    ∀ addr flags, ptwalk addr flags (levels A) as s = ptwalk addr flags (levels A).tail r s := by
  have ⟨r, ht, ha, hr⟩ := i.first hs
  have ⟨info, rest, hl, hi⟩ := levels_cons (A := A)
  refine ⟨r, ht, fun addr flags => ?_⟩
  have hp : s.mem as (indexof addr info) &&& PTE_P ≠ 0 := by
    rw [hi, hr]
    exact (root_leads ha).left
  rw [hl, ptwalk_present hp, hi, hr, baseof_root ha]
  rfl

theorem Inv.ptwalk_levels (h : ptwalk x.va (PTE_W ||| PTE_U) (levels A) as s = .ok (pt, index) s') : ∃ T' ks',
    Inv s₀ sp T' s' ∧ T' as ks' = some pt ∧ path x.va = ks' ++ [index] ∧ s'.spaces = s.spaces ∧
      Gains as T s T' s' := by
  have ⟨r, ht, hw⟩ := i.ptwalk_first hs
  have hx : path x.va = [] ++ (levels A).tail.map (indexof x.va) := rfl
  rw [hw] at h
  exact i.ptwalk_ok ht hx h

-- What follows the first walk of `map`: an entry is written, and the page is walked to again.
theorem Inv.write_ok {v : Option (Word A × BitVec 32)} {e : Word A} (ht : T as ks = some pt)
    (hx : path x.va = ks ++ [index]) (he : Holds e v)
    (h : (ptwalk x.va (PTE_W ||| PTE_U) (levels A) as >>= fun _ => pure ()) (s.store pt index e) = .ok () s') :
    ∃ T', Inv s₀ (assign sp as x.va v) T' s' ∧ s'.spaces = s.spaces ∧ Gains as T s T' s' := by
  have ⟨⟨pt', index'⟩, s₁, hw, h⟩ := bind_ok_iff.mp h
  have ⟨T', _, i', _, _, hs', g⟩ := (i.put ht hx he).ptwalk_levels (x := x) hs hw
  cases h
  have g₀ : Gains as T s T (s.store pt index e) := .of_pool rfl
  exact ⟨T', i', hs', g₀.trans g⟩

theorem Inv.map_ok (h : map as va pa prot s = .ok () s') :
    ∃ T', Inv s₀ ((Call.map as va pa prot).apply sp) T' s' ∧ s'.spaces = s.spaces ∧ Gains as T s T' s' := by
  have ⟨_, s₁, hp, h⟩ := bind_ok_iff.mp h
  have ⟨hr, he⟩ := panic_on_ok hp
  rw [he] at h
  have ⟨_, s₂, hp, h⟩ := bind_ok_iff.mp h
  have ⟨ha, he⟩ := panic_on_ok hp
  rw [he] at h
  have ⟨hva, hpa⟩ := not_or.mp ha
  let x : Page A := ⟨va, Decidable.not_not.mp hr, (Decidable.not_not.mp hva).symm⟩
  have hpa : baseof pa = pa := (Decidable.not_not.mp hpa).symm
  have ⟨⟨pt, index⟩, s₃, hw, h⟩ := bind_ok_iff.mp h
  have ⟨T', ks, i', ht, hx, hs', g⟩ := i.ptwalk_levels (x := x) hs hw
  have hs₃ : s₃.spaces as ≠ none := hs' ▸ hs
  rw [← hs', Call.apply]
  dsimp only at h
  rw [get_bind] at h
  split at h
  case isTrue hp =>
    have ⟨_, s₄, hc, h⟩ := bind_ok_iff.mp h
    have ⟨_, he⟩ := panic_on_ok hc
    rw [he] at h
    have ⟨_, s₅, hm, h⟩ := bind_ok_iff.mp h
    cases hm
    rw [if_pos hp]
    have h₀ : Holds (0 : Word A) none := BitVec.zero_and
    have ⟨T'', i'', he, g'⟩ := i'.write_ok hs₃ ht hx h₀ h
    exact ⟨T'', i'', he, g.trans g'⟩
  case isFalse hp =>
    have ⟨_, s₄, hc, h⟩ := bind_ok_iff.mp h
    have ⟨_, he⟩ := panic_on_ok hc
    rw [he] at h
    have ⟨_, s₅, hm, h⟩ := bind_ok_iff.mp h
    cases hm
    rw [if_neg hp]
    have ⟨T'', i'', he, g'⟩ := i'.write_ok hs₃ ht hx (holds_pte hpa) h
    exact ⟨T'', i'', he, g.trans g'⟩

end Space

end Am.X86
