import Ysyx.Am.X86.Init
import Ysyx.Am.X86.Theorems.Map

-- The tables of every space hold the map of its pages, and the addresses of the kernel.

namespace Am.X86

open Tables (Forest)

variable {A : Arch} {s₀ s s' : State A} {as t addr : Word A} {c : Call A} {cs : List (Call A)}
variable {sp : Spaces A} {T : Word A → List Nat → Option (Word A)} {ks : List Nat} {x : Page A}
variable {ptinfo ptinfo' : PtInfo A} {ptinfos : List (PtInfo A)}

section Walk

variable {mem : Word A → Nat → Word A}

theorem walk_last : walk mem addr [ptinfo] t = mem t (indexof addr ptinfo) := (rfl)

theorem walk_cons : walk mem addr (ptinfo :: ptinfo' :: ptinfos) t =
    if Leads (mem t (indexof addr ptinfo)) then
      walk mem addr (ptinfo' :: ptinfos) (baseof (mem t (indexof addr ptinfo)))
    else
      mem t (indexof addr ptinfo) := (rfl)

end Walk

namespace Inv

variable (i : Inv s₀ sp T s)
include i

-- The walk to a page ends at its entry, or at one without a table on the way.
theorem walk_page (ht : T as ks = some t) (hx : path x.va = ks ++ ptinfos.map (indexof x.va)) (hn : ptinfos ≠ []) :
    Holds (walk s.mem x.va ptinfos t) (sp as x.va) := by
  induction ptinfos generalizing t ks
  case nil => cases hn rfl
  case cons info ptinfos hi =>
    cases ptinfos
    case nil => rw [walk_last]; exact i.forest.value ht hx
    case cons info' ptinfos =>
      have hx' := path_step hx
      have he := i.entry ht hx
      rw [walk_cons]
      cases hT : T as (ks ++ [indexof x.va info])
      case none =>
        have hv : sp as x.va = none := i.forest.absent_of_append hT hx'
        have hp : s.mem t (indexof x.va info) &&& PTE_P = 0 := by rwa [hT] at he
        rw [if_neg fun h => h.left hp, hv]
        exact hp
      case some t' =>
        rw [hT] at he
        have ⟨ha, he⟩ := he
        rw [he, if_pos (table_leads ha), baseof_table ha]
        exact hi hT hx' (List.cons_ne_nil _ _)

-- The walks in the tables of the kernel are those of the beginning.
theorem walk_kernel (hk : Kernel s₀ ptinfos t) (hm : ∀ info ∈ ptinfos, info ∈ (mmu A).pgtables) :
    walk s.mem addr ptinfos t = walk s₀.mem addr ptinfos t := by
  induction ptinfos generalizing t
  case nil => rw [walk, walk]
  case cons info ptinfos hi =>
    cases ptinfos
    case nil => rw [walk_last, walk_last, i.kernel hk]
    case cons info' ptinfos =>
      rw [walk_cons, walk_cons, i.kernel hk]
      split
      case isTrue hl =>
        refine hi (.child hk (indexof_lt (hm info List.mem_cons_self)) hl) fun info h => ?_
        exact hm info (List.mem_cons_of_mem _ h)
      case isFalse => rfl

theorem walk_first (hs : s.spaces as ≠ none) : ∃ r, T as [] = some r ∧
    ∀ addr, walk s.mem addr (levels A) as = walk s.mem addr (levels A).tail r := by
  have ⟨r, ht, ha, hr⟩ := i.first hs
  have ⟨info, rest, hl, hi⟩ := levels_cons (A := A)
  refine ⟨r, ht, fun addr => ?_⟩
  rw [hl, walk_cons, hi, hr, if_pos (root_leads ha), baseof_root ha]
  rfl

theorem walk_shared (hs : s.spaces as ≠ none) (hk : indexof addr (top A) ∈ kernel_indices A) :
    walk s.mem addr (levels A) as = walk s₀.mem addr (levels A).tail s₀.kpt := by
  have ⟨r, ht, hw⟩ := i.walk_first hs
  have ⟨info, rest, hl, _⟩ := levels_cons (A := A)
  have he := i.shared ht hk
  have hr : Kernel s₀ (levels A).tail s₀.kpt := .root
  have hm : ∀ info ∈ rest, info ∈ (mmu A).pgtables := fun info h => by
    rw [← levels_eq, hl]
    exact List.mem_cons_of_mem _ (List.mem_cons_of_mem _ h)
  rw [hw]
  rw [hl, List.tail_cons] at hr ⊢
  cases rest
  case nil => exact he
  case cons info' rest =>
    rw [walk_cons, walk_cons, he]
    split
    case isTrue h => exact i.walk_kernel (.child hr (indexof_lt top_mem) h) hm
    case isFalse => rfl

theorem walk_user (hs : s.spaces as ≠ none) : Holds (walk s.mem x.va (levels A) as) (sp as x.va) := by
  have ⟨r, ht, hw⟩ := i.walk_first hs
  have hx : path x.va = [] ++ (levels A).tail.map (indexof x.va) := rfl
  rw [hw]
  refine i.walk_page ht hx ?_
  have ⟨info, rest, hl, _⟩ := levels_cons (A := A)
  rw [hl]
  exact List.cons_ne_nil _ _

theorem step (h : Step s₀ s c s') : ∃ T', Inv s₀ (c.apply sp) T' s' := by
  cases h
  case protect as ha hk h =>
    have ⟨upt, pool, hp, hs⟩ := protect_ok i.kpt_not_mem h
    exact ⟨_, hs ▸ i.protect ha hk hp⟩
  case map hs h =>
    have ⟨T', i', _, _⟩ := i.map_ok hs h
    exact ⟨T', i'⟩

end Inv

theorem inv_boot (b : Boot s₀) : Inv s₀ (fun _ _ => none) (fun _ _ => none) s₀ where
  boot := b
  forest := {
    child := nofun
    value := nofun
    closed := fun _ => rfl
    absent := fun _ _ => rfl
    inner := nofun
    inj := nofun }
  pool := id
  nodup := b.nodup
  tables := nofun
  kpt := rfl
  kernel _ := rfl
  space h := absurd (b.spaces _) h
  root h := absurd (b.spaces _) h
  shared := nofun
  clear := nofun

theorem Run.inv (r : Run s₀ cs s) : ∃ T, Inv s₀ (spaces cs) T s := by
  induction r
  case nil b => exact ⟨_, inv_boot b⟩
  case cons hs hi =>
    have ⟨_, i⟩ := hi
    exact i.step hs

-- The spaces are those that have been protected.
theorem Run.spaces_iff (r : Run s₀ cs s) : s.spaces as ≠ none ↔ .protect as ∈ cs := by
  induction r
  case nil b => simp [b.spaces as]
  case cons r h hi =>
    have ⟨_, i⟩ := r.inv
    rw [List.mem_cons]
    cases h
    case protect as' _ _ h =>
      have ⟨_, _, _, hs⟩ := protect_ok i.kpt_not_mem h
      rw [hs, protected_spaces]
      by_cases ha : as = as'
      case pos => simp [ha]
      case neg => rw [Function.update_of_ne ha, hi, Call.protect.injEq, or_iff_right ha]
    case map hs h =>
      have ⟨_, _, he, _⟩ := i.map_ok hs h
      rw [he, hi, or_iff_right (by simp)]

-- The tables implement the maps of the spaces.
theorem tables_correct (r : Run s₀ cs s) : Correct s₀ cs s where
  user _ va hs hr ha :=
    have ⟨_, i⟩ := r.inv
    i.walk_user (x := ⟨va, hr, ha⟩) (r.spaces_iff.mpr hs)
  kernel _ _ hs hk :=
    have ⟨_, i⟩ := r.inv
    i.walk_shared (r.spaces_iff.mpr hs) (kernel_index hk)

-- A machine whose kernel has no tables but the first one.
def machine : State .x86_64 where
  mem _ _ := 0
  spaces _ := none
  kpt := 0x1000
  pool := [0x200000, 0x201000, 0x202000, 0x203000]

theorem mem_pool {base : Word .x86_64} (h : base ∈ machine.pool) :
    base = 0x200000 ∨ base = 0x201000 ∨ base = 0x202000 ∨ base = 0x203000 := by
  simpa [machine] using h

def booted : State .x86_64 :=
  start64 machine

theorem booted_eq : vme_init 0 (start64 machine) = .ok () booted := by
  have hk : (start64 machine).kpt = PML4_ADDR := by
    rw [start64, if_neg (by decide)]
    rfl
  exact congrArg (EStateM.Result.ok ()) (State.ext rfl rfl hk.symm rfl)

theorem booted_mem {t : Word .x86_64} {j : Nat} : booted.mem t j =
    if t = PDPT_ADDR then if j < 512 then pdpte j else 0 else if t = PML4_ADDR ∧ j = 0 then pml4e else 0 := by
  have hd : PDPT_ADDR ≠ PML4_ADDR := by decide
  have hp : (machine.store PML4_ADDR 0 pml4e).mem PDPT_ADDR j = 0 := by
    rw [store_mem, if_neg fun h => hd h.left]
    rfl
  have hs : booted.mem = Function.update (machine.store PML4_ADDR 0 pml4e).mem PDPT_ADDR fun i =>
      if i < 512 then pdpte i else (machine.store PML4_ADDR 0 pml4e).mem PDPT_ADDR i := by
    rw [booted, start64, if_neg (by decide)]
    rfl
  rw [hs]
  by_cases ht : t = PDPT_ADDR
  case pos =>
    rw [ht, Function.update_self, if_pos rfl, hp]
  case neg =>
    rw [Function.update_of_ne ht, if_neg ht, store_mem]
    rfl

theorem pdpte_large {i : Nat} : pdpte i &&& PTE_PS ≠ 0 := by
  have hs : ((PTE_PS : Word .x86_64)).getLsbD 7 := by decide
  intro h
  have h := congrArg (BitVec.getLsbD · 7) h
  simp [pdpte, hs] at h

theorem booted_kernel {infos : List (PtInfo .x86_64)} {pt : Word .x86_64} (h : Kernel booted infos pt) :
    pt = PML4_ADDR ∨ pt = PDPT_ADDR := by
  induction h
  case root => exact .inl rfl
  case child index _ hi hl ih =>
    obtain rfl | rfl := ih
    case inl =>
      rw [booted_mem, if_neg (by decide)] at hl ⊢
      split at hl
      case isTrue h => rw [if_pos h]; exact .inr rfl
      case isFalse => exact absurd BitVec.zero_and hl.left
    case inr =>
      have hi : index < 512 := hi
      rw [booted_mem, if_pos rfl, if_pos hi] at hl
      exact absurd ⟨rfl, pdpte_large⟩ hl.right

theorem booted_boot : Boot booted where
  nodup := by decide
  aligned base hb := by
    obtain rfl | rfl | rfl | rfl := mem_pool hb <;> rfl
  kernel base hb _ hk := by
    obtain rfl | rfl := booted_kernel hk <;> exact absurd hb (by decide)
  spaces _ := rfl

-- What holds of the state in which a call returns.
def after {α : Type} (p : State A → Bool) : EStateM.Result String (State A) α → Bool
  | .ok _ s => p s
  | .error _ _ => false

theorem exists_of_after {p : State A → Bool} {r : EStateM.Result String (State A) Unit} (h : after p r) :
    ∃ s, r = .ok () s ∧ p s := by
  cases r
  case ok s => exact ⟨s, rfl, h⟩
  case error => cases h

theorem booted_run : after (·.pool = [])
    ((protect 0x8 >>= fun _ => map 0x8 0x100000000000 0x300000 MMAP_WRITE) booted) := by
  decide +kernel

theorem booted_calls : ∃ s₁ s, Step booted booted (.protect 0x8) s₁ ∧
    Step booted s₁ (.map 0x8 0x100000000000 0x300000 MMAP_WRITE) s ∧
    s₁.pool = [0x201000, 0x202000, 0x203000] ∧ s.pool = [] := by
  have ⟨s, h, hs⟩ := exists_of_after booted_run
  have ⟨_, s₁, hp, hm⟩ := EState.bind_ok_iff.mp h
  have hk (infos : List (PtInfo .x86_64)) : ¬Kernel booted infos 0x8 := fun hk => by
    obtain h | h := booted_kernel hk <;> exact absurd h (by decide)
  have hk' : booted.kpt ∉ booted.pool := by decide
  obtain ⟨upt, pool, hu, rfl⟩ := protect_ok hk' hp
  refine ⟨_, s, .protect (by decide) hk hp, .map ?_ hm, (List.cons.inj hu).right.symm, of_decide_eq_true hs⟩
  rw [protected_spaces, Function.update_self]
  exact Option.some_ne_none _

-- The page and not the next one, and an address of the kernel.
theorem tables_correct_map : ∃ s, Run booted [.map 0x8 0x100000000000 0x300000 MMAP_WRITE, .protect 0x8] s ∧
    Holds (walk s.mem 0x100000000000 (levels .x86_64) 0x8) (some (0x300000, MMAP_WRITE)) ∧
    Holds (walk s.mem 0x100000001000 (levels .x86_64) 0x8) none ∧
    walk s.mem 0x40000123 (levels .x86_64) 0x8 = pdpte 1 := by
  have ⟨_, s, hp, hm, _⟩ := booted_calls
  have r := (Run.cons (.nil booted_boot) hp).cons hm
  have c := tables_correct r
  have hw : walk booted.mem 0x40000123 (levels .x86_64).tail booted.kpt = pdpte 1 := by decide +kernel
  refine ⟨s, r, ?_, ?_, hw ▸ c.kernel 0x8 0x40000123 (by simp) ?_⟩
  case refine_1 => exact c.user 0x8 0x100000000000 (by simp) (by decide) (by decide)
  case refine_2 => exact c.user 0x8 0x100000001000 (by simp) (by decide) (by decide)
  case refine_3 => exact ⟨_, List.mem_cons_of_mem _ <| List.mem_singleton_self _, rfl, by rw [InArea]; decide⟩

end Am.X86
