import Ysyx.Am.X86.Init
import Ysyx.Am.X86.Theorems.Map

-- The kernel's entries of the first table are not for the user.

namespace Am.X86

open EState (bind_ok_iff)

variable {A : Arch} {s₀ s s' : State A}

def Supervisor (s₀ : State A) : Prop :=
  ∀ k ∈ kernel_indices A, s₀.mem s₀.kpt k &&& PTE_U = 0

section X86_64

variable {s : State .x86_64}

theorem start64_mem : (start64 s).mem PML4_ADDR 0 &&& PTE_U = 0 := by
  have hu : pml4e &&& PTE_U = 0 := by decide
  rw [start64]
  split
  case isTrue h =>
    have hl : lower &&& PTE_U = PTE_U := by decide
    rw [← hl, ← BitVec.and_assoc, h, hu]
  case isFalse =>
    have hl : ~~~lower &&& PTE_U = 0 := by decide
    have hm : PML4_ADDR ≠ PDPT_ADDR := by decide
    dsimp only
    rw [Function.update_of_ne hm, store_mem, if_pos ⟨rfl, rfl⟩, BitVec.and_or_distrib_right, BitVec.and_assoc,
      hl, hu, or_zero]
    exact BitVec.and_zero

end X86_64

section X86

variable {s s' : State .x86} {as r t e cur stop pt base : Word .x86} {pool : List (Word .x86)} {index fuel : Nat}
variable {info info' : PtInfo .x86} {vma : VmArea .x86}

section Entry

variable (ht : baseof t = t)
include ht

theorem dir_present : (t ||| PTE_P ||| PTE_W) &&& PTE_P ≠ 0 := by
  rw [BitVec.or_assoc, or_and_flag ht baseof_P]
  decide

theorem dir_supervisor : (t ||| PTE_P ||| PTE_W) &&& PTE_U = 0 := by
  rw [BitVec.or_assoc, or_and_flag ht baseof_U]
  decide

theorem baseof_dir : baseof (t ||| PTE_P ||| PTE_W) = t := by
  rw [BitVec.or_assoc]
  exact baseof_or_flags ht (by rfl)

end Entry

-- `r` is the first table, and the others lie under its entries.
structure Dir (as r : Word .x86) (s : State .x86) : Prop where
  root : as ∉ s.pool
  page : r ∉ s.pool
  ne : r ≠ as
  base : baseof r = r
  aligned : ∀ base ∈ s.pool, baseof base = base
  top : s.mem as 0 = r ||| PTE_P ||| PTE_W
  entry : ∀ j < entries .x86, s.mem r j = 0 ∨
    ∃ t, s.mem r j = t ||| PTE_P ||| PTE_W ∧ baseof t = t ∧ t ≠ r ∧ t ≠ as

namespace Dir

variable (d : Dir as r s)
include d

theorem store (hr : t ≠ r) (ha : t ≠ as) : Dir as r (s.store t index e) where
  root := d.root
  page := d.page
  ne := d.ne
  base := d.base
  aligned := d.aligned
  top := by rw [store_mem, if_neg fun h => ha h.left.symm, d.top]
  entry j hj := by
    rw [store_mem, if_neg fun h => hr h.left.symm]
    exact d.entry j hj

theorem grow (hp : s.pool = base :: pool) :
    Dir as r ((s.alloc base pool).store r index (base ||| PTE_P ||| PTE_W)) where
  root h := d.root (hp ▸ List.mem_cons_of_mem _ h)
  page h := d.page (hp ▸ List.mem_cons_of_mem _ h)
  ne := d.ne
  base := d.base
  aligned base h := d.aligned base (hp ▸ List.mem_cons_of_mem _ h)
  top := by
    have ha : as ≠ base := fun h => d.root (hp ▸ h ▸ List.mem_cons_self)
    rw [store_mem, if_neg fun h => d.ne h.left.symm, alloc_mem_of_ne ha, d.top]
  entry j hj := by
    have hm : base ∈ s.pool := hp ▸ List.mem_cons_self
    rw [store_mem]
    split
    case isTrue => exact .inr ⟨base, rfl, d.aligned base hm, fun h => d.page (h ▸ hm), fun h => d.root (h ▸ hm)⟩
    case isFalse =>
      have hr : r ≠ base := fun h => d.page (h ▸ hm)
      rw [alloc_mem_of_ne hr]
      exact d.entry j hj

theorem ptwalk_ok (hi : info ∈ (mmu .x86).pgtables) (h : ptwalk cur PTE_W [info, info'] r s = .ok (pt, index) s') :
    Dir as r s' ∧ pt ≠ r ∧ pt ≠ as := by
  by_cases hp : s.mem r (indexof cur info) &&& PTE_P = 0
  case pos =>
    have ⟨base, pool, hs, h⟩ := ptwalk_missing hp h
    have hm : base ∈ s.pool := hs ▸ List.mem_cons_self
    cases h
    exact ⟨d.grow hs, fun h => d.page (h ▸ hm), fun h => d.root (h ▸ hm)⟩
  case neg =>
    rw [ptwalk_present hp] at h
    cases h
    obtain he | ⟨t, he, ht, hr, ha⟩ := d.entry _ (indexof_lt hi)
    case inl => rw [he] at hp; exact absurd BitVec.zero_and hp
    case inr =>
      rw [he, baseof_dir ht]
      exact ⟨d, hr, ha⟩

theorem supervisor {j : Nat} (hj : j < entries .x86) : s.mem r j &&& PTE_U = 0 := by
  obtain he | ⟨t, he, ht, _⟩ := d.entry j hj
  case inl => rw [he]; exact BitVec.zero_and
  case inr => rw [he, dir_supervisor ht]

end Dir

-- There are no tables yet.
structure Bare (as : Word .x86) (s : State .x86) : Prop where
  root : as ∉ s.pool
  nodup : s.pool.Nodup
  aligned : ∀ base ∈ s.pool, baseof base = base
  top : s.mem as 0 = 0

theorem Bare.grow (b : Bare as s) (hp : s.pool = base :: pool) :
    Dir as base ((s.alloc base pool).store as 0 (base ||| PTE_P ||| PTE_W)) := by
  have hm : base ∈ s.pool := hp ▸ List.mem_cons_self
  have ha : base ≠ as := fun h => b.root (h ▸ hm)
  have ⟨hn, _⟩ := List.nodup_cons.mp (hp ▸ b.nodup)
  exact {
    root := fun h => b.root (hp ▸ List.mem_cons_of_mem _ h)
    page := hn
    ne := ha
    base := b.aligned base hm
    aligned := fun base h => b.aligned base (hp ▸ List.mem_cons_of_mem _ h)
    top := by rw [store_mem, if_pos ⟨rfl, rfl⟩]
    entry := fun j hj => by
      rw [store_mem, if_neg fun h => ha h.left]
      exact .inl (alloc_mem_self hj) }

theorem levels_x86 : ∃ info info' info'', levels .x86 = [info, info', info''] ∧ info' ∈ (mmu .x86).pgtables ∧
    ∀ addr, indexof addr info = 0 := by
  refine ⟨_, _, _, rfl, List.mem_cons_of_mem _ List.mem_cons_self, fun addr => ?_⟩
  exact (indexof_eq List.mem_cons_self).trans (Nat.mod_one _)

-- The walk comes to an entry of a last table.
theorem fill_walk (hs : Bare as s ∨ ∃ r, Dir as r s) (h : ptwalk cur PTE_W (levels .x86) as s = .ok (pt, index) s') :
    ∃ r, Dir as r s' ∧ pt ≠ r ∧ pt ≠ as := by
  have ⟨info, _, _, hl, hm, hi⟩ := levels_x86
  rw [hl] at h
  obtain b | ⟨r, d⟩ := hs
  case inl =>
    have hn : s.mem as (indexof cur info) &&& PTE_P = 0 := by
      rw [hi, b.top]
      exact BitVec.zero_and
    have ⟨base, pool, hs, h⟩ := ptwalk_missing hn h
    rw [hi] at h
    exact ⟨base, (b.grow hs).ptwalk_ok hm h⟩
  case inr =>
    have hp : s.mem as (indexof cur info) &&& PTE_P ≠ 0 := by
      rw [hi, d.top]
      exact dir_present d.base
    rw [ptwalk_present hp, hi, d.top, baseof_dir d.base] at h
    exact ⟨r, d.ptwalk_ok hm h⟩

theorem fillArea_ok (hs : Bare as s ∧ cur ≠ stop ∨ ∃ r, Dir as r s) (h : fillArea as stop fuel cur s = .ok () s') :
    ∃ r, Dir as r s' := by
  induction fuel generalizing cur s
  case zero => cases h
  case succ fuel hi =>
    rw [fillArea] at h
    split at h
    case isTrue hc =>
      cases h
      exact hs.resolve_left fun h => h.right hc
    case isFalse =>
      have ⟨⟨pt, index⟩, s₁, hw, h⟩ := bind_ok_iff.mp h
      have ⟨r, d, hr, ha⟩ := fill_walk (hs.imp_left And.left) hw
      have ⟨_, s₂, hm, h⟩ := bind_ok_iff.mp h
      cases hm
      exact hi (.inr ⟨r, d.store hr ha⟩) h

theorem fillAreas_ok (b : Bare as s) (h : fillAreas as (vm_areas .x86) s = .ok () s') : ∃ r, Dir as r s' := by
  have ⟨_, s₁, h₁, h⟩ := bind_ok_iff.mp (h : (fillArea as 0x40000000 _ 0 >>= fun _ => fillAreas as _) s = _)
  have ⟨_, s₂, h₂, h⟩ := bind_ok_iff.mp (h : (fillArea as 0 _ _ >>= fun _ => fillAreas as []) s₁ = _)
  cases h
  have d := fillArea_ok (.inl ⟨b, by decide⟩) h₁
  exact fillArea_ok (.inr d) h₂

theorem vme_init_x86 (ha : as ∉ s.pool) (hn : s.pool.Nodup) (hb : ∀ base ∈ s.pool, baseof base = base)
    (h : vme_init as s = .ok () s') : Supervisor s' := by
  rw [vme_init] at h
  have ⟨_, s₁, h₁, h⟩ := bind_ok_iff.mp h
  cases h₁
  have ⟨_, s₁, h₁, h⟩ := bind_ok_iff.mp h
  cases h
  have b : Bare as (s.store as 0 0) := ⟨ha, hn, hb, by rw [store_mem, if_pos ⟨rfl, rfl⟩]⟩
  have ⟨r, d⟩ := fillAreas_ok b h₁
  intro k hk
  have he : entries .x86 = 1024 := rfl
  have hk : k < entries .x86 := by
    rw [kernel_indices, List.mem_append, List.mem_range, List.mem_range'_1] at hk
    omega
  dsimp only
  rw [d.top, baseof_dir d.base]
  exact d.supervisor hk

end X86

theorem Booted.supervisor (b : Booted s₀) : Supervisor s₀ := by
  cases b
  case x86 ha hn hb h => exact vme_init_x86 ha hn hb h
  case x86_64 h =>
    cases h
    intro k hk
    rw [List.mem_singleton.mp hk]
    exact start64_mem

end Am.X86
