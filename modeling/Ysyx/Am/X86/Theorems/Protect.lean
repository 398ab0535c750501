import Ysyx.Am.X86.Theorems.Space

-- `protect` gives a space a first table with the entries of the kernel.

namespace Am.X86

open Function (update)
open Tables (Forest)
open EState (bind_ok_iff bind_of_ok)

variable {A : Arch} {s₀ s s' : State A} {as upt cur stop t p r : Word A} {j k fuel : Nat}
variable {sp : Spaces A} {T : Word A → List Nat → Option (Word A)} {info : PtInfo A} {l l' : List Nat}
variable {vmas : List (VmArea A)} {pool : List (Word A)}

section Copy

-- The entries that the loop over an area copies.
def indices (info : PtInfo A) (stop : Word A) : Nat → Word A → Option (List Nat)
  | 0, _ => none
  | fuel + 1, cur =>
    if cur = stop then
      some []
    else
      (indices info stop fuel (cur + (1 : Word A) <<< info.shift)).map (indexof cur info :: ·)

def areaIndices (info : PtInfo A) : List (VmArea A) → Option (List Nat)
  | [] => some []
  | vma :: vmas =>
    (if vma.kernel then indices info vma.area.end (2 ^ info.bits + 1) vma.area.start else some []).bind fun l =>
      (areaIndices info vmas).map (l ++ ·)

theorem areaIndices_eq : areaIndices (top A) (vm_areas A) = some (kernel_indices A) := by
  cases A <;> decide +kernel

def State.copy (s : State A) (upt : Word A) (l : List Nat) : State A :=
  { s with mem := update s.mem upt fun k => if k ∈ l then s.mem s.kpt k else s.mem upt k }

theorem copy_mem : (s.copy upt l).mem t k = if t = upt ∧ k ∈ l then s.mem s.kpt k else s.mem t k := by
  rw [State.copy]
  by_cases h : t = upt <;> simp [h]

theorem copy_nil : s.copy upt [] = s := by
  refine State.ext ?_ rfl rfl rfl
  funext t k
  rw [copy_mem, if_neg fun h => List.not_mem_nil h.right]

theorem copy_copy (h : s.kpt ≠ upt) : (s.copy upt l).copy upt l' = s.copy upt (l ++ l') := by
  refine State.ext ?_ rfl rfl rfl
  funext t k
  have hk : (s.copy upt l).mem (s.copy upt l).kpt k = s.mem s.kpt k := by
    rw [copy_mem, if_neg fun he => h he.left]
    rfl
  rw [copy_mem, hk, copy_mem, copy_mem]
  by_cases ht : t = upt
  case pos => by_cases hl : k ∈ l <;> simp [ht, hl]
  case neg => simp [ht]

theorem store_eq_copy : s.store upt k (s.mem s.kpt k) = s.copy upt [k] := by
  refine State.ext ?_ rfl rfl rfl
  funext t j
  simp only [copy_mem, store_mem, List.mem_singleton]
  split
  case isTrue h => rw [h.right]
  case isFalse => rfl

theorem copyArea_ok (h : s.kpt ≠ upt) (hl : indices info stop fuel cur = some l) :
    copyArea info upt stop fuel cur s = .ok () (s.copy upt l) := by
  induction fuel generalizing cur s l
  case zero => cases hl
  case succ fuel hi =>
    rw [indices] at hl
    rw [copyArea]
    split at hl
    case isTrue hc => cases hl; rw [if_pos hc, copy_nil]; rfl
    case isFalse hc =>
      have ⟨l, hl, he⟩ := Option.map_eq_some_iff.mp hl
      have hs : (modify fun s => s.store upt (indexof cur info) (s.mem s.kpt (indexof cur info)) : Exec A Unit) s =
          .ok () (s.copy upt [indexof cur info]) := congrArg _ store_eq_copy
      rw [if_neg hc, ← he, bind_of_ok hs]
      exact (hi (s := s.copy upt [indexof cur info]) h hl).trans (congrArg _ (copy_copy h))

theorem copyAreas_ok (h : s.kpt ≠ upt) (hl : areaIndices info vmas = some l) :
    copyAreas info upt vmas s = .ok () (s.copy upt l) := by
  induction vmas generalizing s l
  case nil => cases hl; rw [copy_nil]; rfl
  case cons vma vmas hi =>
    rw [areaIndices] at hl
    have ⟨l₁, h₁, hl⟩ := Option.bind_eq_some_iff.mp hl
    have ⟨l₂, h₂, he⟩ := Option.map_eq_some_iff.mp hl
    rw [copyAreas, ← he, ← copy_copy h]
    split at h₁
    case isTrue hk =>
      rw [if_pos hk, bind_of_ok (copyArea_ok h h₁)]
      exact hi h h₂
    case isFalse hk =>
      cases h₁
      rw [if_neg hk, copy_nil]
      exact hi h h₂

end Copy

-- The state behind `protect`.
def State.protected (s : State A) (as upt : Word A) (pool : List (Word A)) : State A :=
  ({ (s.alloc upt pool).copy upt (kernel_indices A) with
    spaces := update s.spaces as (some { pgsize := (mmu A).pgsize, area := uvm_area A }) } : State A).store
      as 0 (upt ||| PTE_P ||| PTE_U)

theorem protect_ok (hk : s.kpt ∉ s.pool) (h : protect as s = .ok () s') :
    ∃ upt pool, s.pool = upt :: pool ∧ s' = s.protected as upt pool := by
  have ⟨upt, s₁, hp, h⟩ := bind_ok_iff.mp h
  have ⟨pool, hs, he⟩ := pgallocz_ok hp
  have hne : s₁.kpt ≠ upt := fun hn => hk (by rw [hs, ← hn, he]; exact List.mem_cons_self)
  rw [bind_of_ok (copyAreas_ok hne areaIndices_eq)] at h
  refine ⟨upt, pool, hs, ?_⟩
  cases h
  rw [he]
  rfl

-- With a page the calls return: the loops over the areas come to an end.
theorem protect_returns (hk : s.kpt ∉ s.pool) (hp : s.pool = upt :: pool) (hn : upt ≠ 0) :
    protect as s = .ok () (s.protected as upt pool) := by
  have ha : pgallocz s = .ok upt (s.alloc upt pool) := pgallocz_of_pool hp hn
  have hne : s.kpt ≠ upt := fun h => hk (by rw [hp, ← h]; exact List.mem_cons_self)
  have hc := copyAreas_ok (s := s.alloc upt pool) hne areaIndices_eq
  rw [protect, bind_of_ok ha, bind_of_ok hc]
  rfl

theorem protected_spaces : (s.protected as upt pool).spaces =
    update s.spaces as (some { pgsize := (mmu A).pgsize, area := uvm_area A }) := (rfl)

theorem protected_mem_self : (s.protected as upt pool).mem as 0 = upt ||| PTE_P ||| PTE_U := by
  rw [State.protected, store_mem, if_pos ⟨rfl, rfl⟩]

theorem protected_mem_of_ne (h : ¬(t = as ∧ j = 0)) :
    (s.protected as upt pool).mem t j = ((s.alloc upt pool).copy upt (kernel_indices A)).mem t j := by
  rw [State.protected, store_mem, if_neg h]

theorem protected_mem_old (ha : ¬(t = as ∧ j = 0)) (hu : t ≠ upt) :
    (s.protected as upt pool).mem t j = s.mem t j := by
  rw [protected_mem_of_ne ha, copy_mem, if_neg fun h => hu h.left, alloc_mem_of_ne hu]

theorem protected_mem_kernel (ha : upt ≠ as) (hk : s.kpt ≠ upt) (hj : j ∈ kernel_indices A) :
    (s.protected as upt pool).mem upt j = s.mem s.kpt j := by
  rw [protected_mem_of_ne fun h => ha h.left, copy_mem, if_pos ⟨rfl, hj⟩]
  exact congrFun (alloc_mem_of_ne hk) j

theorem protected_mem_user (ha : upt ≠ as) (hj : j ∉ kernel_indices A) (hl : j < entries A) :
    (s.protected as upt pool).mem upt j = 0 := by
  rw [protected_mem_of_ne fun h => ha h.left, copy_mem, if_neg fun h => hj h.right, alloc_mem_self hl]

theorem protected_space {as' : Word A} (h : (s.protected as upt pool).spaces as' ≠ none) :
    as' = as ∨ as' ≠ as ∧ s.spaces as' ≠ none := by
  by_cases he : as' = as
  case pos => exact .inl he
  case neg =>
    have hs : (s.protected as upt pool).spaces as' = s.spaces as' := Function.update_of_ne he ..
    exact .inr ⟨he, hs ▸ h⟩

theorem Inv.protect (i : Inv s₀ sp T s) (ha : as ∉ s₀.pool) (hk : ∀ ptinfos, ¬Kernel s₀ ptinfos as)
    (hs : s.pool = upt :: pool) :
    Inv s₀ (update sp as fun _ => none) (Forest.replant T as upt) (s.protected as upt pool) := by
  have hm : upt ∈ s.pool := hs ▸ List.mem_cons_self
  have ⟨hm', hd⟩ := List.nodup_cons.mp (hs ▸ i.nodup)
  have hT {as ks} : T as ks ≠ some upt := fun h => (i.tables h).right hm
  have hne : upt ≠ as := fun h => ha (h ▸ i.pool hm)
  have hku : s.kpt ≠ upt := fun h => i.kpt_not_mem (h ▸ hm)
  have htab {r js t j} (ht : T r js = some t) : (s.protected as upt pool).mem t j = s.mem t j :=
    protected_mem_old (fun h => ha (h.left ▸ (i.tables ht).left)) fun h => hT (h ▸ ht)
  have hz {y : Page A} {k ks} (hy : path y.va = k :: ks) : (s.protected as upt pool).mem upt k &&& PTE_P = 0 := by
    have hm : k ∈ path y.va := by rw [hy]; exact List.mem_cons_self
    rw [protected_mem_user hne (not_kernel_index hy) (path_lt hm)]
    exact BitVec.zero_and
  have hsp : (fun as' (x : Page A) => update sp as (fun _ => none) as' x.va) =
      update (fun as' (x : Page A) => sp as' x.va) as fun _ => none := by
    funext as' x
    by_cases h : as' = as <;> simp [h]
  exact {
    boot := i.boot
    forest := by
      rw [hsp]
      refine i.forest.plant inner_nil hT htab (fun hj => ?child) fun {j y} hy => hz (y := y) hy
      have ⟨y, ⟨ks, hy⟩, _⟩ := hj
      exact hz hy.symm
    pool := fun hb => i.pool (hs ▸ List.mem_cons_of_mem _ hb)
    nodup := hd
    tables := fun ht => by
      obtain ⟨_, _, h⟩ | ⟨_, ht⟩ := Forest.replant_cases ht
      case inl => rw [h]; exact ⟨i.pool hm, hm'⟩
      case inr => exact (i.tables ht).imp_right fun h hb => h (hs ▸ List.mem_cons_of_mem _ hb)
    kpt := i.kpt
    kernel := fun {ptinfos t} ht => by
      refine (funext fun j => ?_).trans (i.kernel ht)
      refine protected_mem_old (fun h => hk _ (h.left ▸ ht)) fun h => ?_
      exact i.boot.kernel upt (i.pool hm) _ (h ▸ ht)
    space := fun h => by
      obtain rfl | ⟨_, h⟩ := protected_space h
      case inl => exact ha
      case inr => exact i.space h
    root := fun {as'} h => by
      obtain rfl | ⟨he, h⟩ := protected_space h
      case inl => exact ⟨upt, Forest.replant_nil, protected_mem_self⟩
      case inr =>
        have hu : as' ≠ upt := fun hu => i.space h (hu ▸ i.pool hm)
        rw [Forest.replant_of_ne he, protected_mem_old (fun h => he h.left) hu]
        exact i.root h
    shared := fun {as' r k} ht hj => by
      obtain ⟨_, _, rfl⟩ | ⟨_, ht⟩ := Forest.replant_cases ht
      case inl => rw [protected_mem_kernel hne hku hj, i.kpt, i.kernel .root]
      case inr => rw [htab ht]; exact i.shared ht hj
    clear := fun {as' ks t j} ht hj hx hk => by
      obtain ⟨_, rfl, rfl⟩ | ⟨_, ht⟩ := Forest.replant_cases ht
      case inl => exact protected_mem_user hne (hk rfl) hj
      case inr => rw [htab ht]; exact i.clear ht hj hx hk }

end Am.X86
