import Ysyx.Am.X86.Theorems.Index

-- The tables of the address spaces: what a call keeps, and what it changes.

namespace Am.X86

open Function (update)
open Tables (Forest assign)
open EState (bind_ok_iff bind_of_ok get_bind)

variable {A : Arch} {s₀ s s' : State A} {as as' t t' p r e va pa flags : Word A} {prot : BitVec 32} {j k : Nat}
variable {sp : Spaces A} {T : Word A → List Nat → Option (Word A)} {ks : List Nat} {x : Page A}
variable {ptinfo : PtInfo A} {ptinfos : List (PtInfo A)} {pool : List (Word A)}

section Memory

theorem store_mem : (s.store t k e).mem t' j = if t' = t ∧ j = k then e else s.mem t' j := by
  rw [State.store]
  by_cases ht : t' = t
  case pos =>
    subst ht
    by_cases hj : j = k <;> simp [hj]
  case neg => simp [ht]

-- The state behind `pgallocz`.
def State.alloc (s : State A) (p : Word A) (pool : List (Word A)) : State A :=
  { s with
    mem := update s.mem p fun i => if i < entries A then 0 else s.mem p i
    pool := pool }

theorem alloc_mem_self (h : k < entries A) : (s.alloc p pool).mem p k = 0 := by
  simp [State.alloc, h]

theorem alloc_mem_of_ne (h : t ≠ p) : (s.alloc p pool).mem t = s.mem t :=
  Function.update_of_ne h ..

-- The state with a new table under an entry.
def State.grow (s : State A) (p : Word A) (pool : List (Word A)) (t : Word A) (k : Nat) : State A :=
  (s.alloc p pool).store t k (p ||| PTE_P ||| (PTE_W ||| PTE_U))

theorem grow_mem_entry : (s.grow p pool t k).mem t k = p ||| PTE_P ||| (PTE_W ||| PTE_U) := by
  rw [State.grow, store_mem, if_pos ⟨rfl, rfl⟩]

theorem grow_mem_table (ht : p ≠ t) (h : j < entries A) : (s.grow p pool t k).mem p j = 0 := by
  rw [State.grow, store_mem, if_neg fun h => ht h.left, alloc_mem_self h]

theorem grow_mem_of_ne (hp : t' ≠ p) (h : ¬(t' = t ∧ j = k)) : (s.grow p pool t k).mem t' j = s.mem t' j := by
  rw [State.grow, store_mem, if_neg h, alloc_mem_of_ne hp]

theorem panic_on_ok {c : Prop} [Decidable c] {text : String} {u : Unit} (h : panic_on c text s = .ok u s') :
    ¬c ∧ s' = s := by
  rw [panic_on] at h
  split at h
  case isTrue => cases h
  case isFalse hc => cases h; exact ⟨hc, rfl⟩

theorem pgallocz_ok (h : pgallocz s = .ok p s') : ∃ pool, s.pool = p :: pool ∧ s' = s.alloc p pool := by
  have ⟨base, s₁, hb, h⟩ := bind_ok_iff.mp h
  have ⟨_, s₂, hc, h⟩ := bind_ok_iff.mp h
  have ⟨hn, he⟩ := panic_on_ok hc
  have ⟨_, s₃, hm, h⟩ := bind_ok_iff.mp h
  subst he
  rw [pgalloc] at hb
  split at hb
  case h_1 => cases hb; exact absurd rfl hn
  case h_2 hp => cases hb; cases hm; cases h; exact ⟨_, hp, rfl⟩

theorem pgallocz_of_pool (hp : s.pool = p :: pool) (hn : p ≠ 0) : pgallocz s = .ok p (s.alloc p pool) := by
  have h : pgalloc s = .ok p { s with pool := pool } := by rw [pgalloc, hp]
  have hc : panic_on (p = 0) "cannot allocate page" { s with pool := pool } = .ok () { s with pool := pool } := by
    rw [panic_on, if_neg hn]
    rfl
  rw [pgallocz, bind_of_ok h, bind_of_ok hc]
  rfl

end Memory

-- The entries of the tables above the last ones.
def TableEntry : Option (Word A) → Word A → Prop
  | none, e => e &&& PTE_P = 0
  | some t, e => baseof t = t ∧ e = t ||| PTE_P ||| (PTE_W ||| PTE_U)

-- `T` has the table of each path of a space.
structure Inv (s₀ : State A) (sp : Spaces A) (T : Word A → List Nat → Option (Word A)) (s : State A) : Prop where
  boot : Boot s₀
  forest : Forest (shape A) TableEntry (fun v e => Holds e v) s.mem T fun as x => sp as x.va
  pool : ∀ {base}, base ∈ s.pool → base ∈ s₀.pool
  nodup : s.pool.Nodup
  tables : ∀ {as ks t}, T as ks = some t → t ∈ s₀.pool ∧ t ∉ s.pool
  kpt : s.kpt = s₀.kpt
  kernel : ∀ {ptinfos t}, Kernel s₀ ptinfos t → s.mem t = s₀.mem t
  space : ∀ {as}, s.spaces as ≠ none → as ∉ s₀.pool
  root : ∀ {as}, s.spaces as ≠ none → ∃ r, T as [] = some r ∧ s.mem as 0 = r ||| PTE_P ||| PTE_U
  shared : ∀ {as r k}, T as [] = some r → k ∈ kernel_indices A → s.mem r k = s₀.mem s₀.kpt k
  clear : ∀ {as ks t j}, T as ks = some t → j < entries A → (∀ x : Page A, ¬ks ++ [j] <+: path x.va) →
    (ks = [] → j ∉ kernel_indices A) → s.mem t j = 0

-- From `s` to `s'` the space `as` gains the pages that leave the pool for tables.
structure Gains (as : Word A) (T : Word A → List Nat → Option (Word A)) (s : State A)
    (T' : Word A → List Nat → Option (Word A)) (s' : State A) : Prop where
  pool : ∀ {t}, t ∈ s'.pool → t ∈ s.pool
  tables : ∀ {as' t}, (∃ ks, T' as' ks = some t) ↔ (∃ ks, T as' ks = some t) ∨ as' = as ∧ t ∈ s.pool ∧ t ∉ s'.pool

namespace Gains

variable {T' T'' : Word A → List Nat → Option (Word A)} {s'' : State A}

theorem of_pool (h : s'.pool = s.pool) : Gains as T s T s' where
  pool ht := h ▸ ht
  tables := by simp [h]

theorem trans (g : Gains as T s T' s') (g' : Gains as T' s' T'' s'') : Gains as T s T'' s'' where
  pool ht := g.pool (g'.pool ht)
  tables {as' t} := by
    rw [g'.tables, g.tables]
    have h₁ := g.pool (t := t)
    have h₂ := g'.pool (t := t)
    tauto

end Gains

namespace Inv

-- The words that a call may change: those of new pages, and the entries of tables for pages of the user space.
inductive Owned (T : Word A → List Nat → Option (Word A)) (s : State A) (t : Word A) (j : Nat) : Prop
  | fresh : t ∈ s.pool → Owned T s t j
  | entry {as : Word A} {ks : List Nat} {x : Page A} : T as ks = some t → ks ++ [j] <+: path x.va → Owned T s t j

theorem owned_of_path {js : List Nat} (ht : T as ks = some t) (h : path x.va = ks ++ k :: js) : Owned T s t k :=
  .entry (x := x) ht ⟨js, by rw [h, List.append_assoc, List.singleton_append]⟩

theorem assign_page {v : Option (Word A × BitVec 32)} :
    (fun as (y : Page A) => assign sp as' x.va v as y.va) = assign (fun as (y : Page A) => sp as y.va) as' x v := by
  funext as y
  by_cases h : as = as' ∧ y = x
  case pos => rw [h.left, h.right, Tables.assign_self, Tables.assign_self]
  case neg =>
    rw [Tables.assign_of_ne h, Tables.assign_of_ne fun ⟨ha, hx⟩ => h ⟨ha, Page.ext hx⟩]

variable (i : Inv s₀ sp T s)
include i

theorem aligned (h : T as ks = some t) : baseof t = t :=
  i.boot.aligned t (i.tables h).left

theorem kpt_not_mem : s.kpt ∉ s.pool := by
  intro hp
  refine i.boot.kernel s.kpt (i.pool hp) (levels A).tail ?_
  rw [i.kpt]
  exact .root

theorem not_owned_of_not_pool (h : t ∉ s₀.pool) : ¬Owned T s t j := by
  intro ho
  cases ho
  case fresh hp => exact h (i.pool hp)
  case entry ht _ => exact h (i.tables ht).left

theorem kernel_not_owned (h : Kernel s₀ ptinfos t) : ¬Owned T s t j :=
  i.not_owned_of_not_pool fun hp => i.boot.kernel t hp _ h

theorem shared_not_owned (h : T as [] = some r) (hk : k ∈ kernel_indices A) : ¬Owned T s r k := by
  intro ho
  cases ho
  case fresh hp => exact (i.tables h).right hp
  case entry ht hx =>
    rw [(i.forest.inj ht h).right] at hx
    have ⟨_, hx⟩ := hx
    exact not_kernel_index hx.symm hk

-- An entry of a table that is on no way to a page.
theorem clear_not_owned (h : T as ks = some t) (hx : ∀ x : Page A, ¬ks ++ [j] <+: path x.va) : ¬Owned T s t j := by
  intro ho
  cases ho
  case fresh hp => exact (i.tables h).right hp
  case entry x ht hy =>
    rw [(i.forest.inj ht h).right] at hy
    exact hx x hy

-- A call that changes such words alone, and takes new tables from the pool.
theorem of_owned {sp' : Spaces A} {T' : Word A → List Nat → Option (Word A)}
    (hm : ∀ {t j}, ¬Owned T s t j → s'.mem t j = s.mem t j) (hs : s'.spaces = s.spaces) (hk : s'.kpt = s.kpt)
    (hp : ∀ {base}, base ∈ s'.pool → base ∈ s.pool) (hn : s'.pool.Nodup)
    (hT : ∀ {as ks t}, T' as ks = some t → T as ks = some t ∨ t ∈ s.pool ∧ t ∉ s'.pool)
    (hz : ∀ {t j}, t ∈ s.pool → t ∉ s'.pool → j < entries A → s'.mem t j = 0)
    (hr : ∀ {as}, T' as [] = T as [])
    (hf : Forest (shape A) TableEntry (fun v e => Holds e v) s'.mem T' fun as x => sp' as x.va) :
    Inv s₀ sp' T' s' where
  boot := i.boot
  forest := hf
  pool hb := i.pool (hp hb)
  nodup := hn
  tables ht := by
    obtain ht | ⟨ht, hn⟩ := hT ht
    case inl => exact (i.tables ht).imp_right fun h hm => h (hp hm)
    case inr => exact ⟨i.pool ht, hn⟩
  kpt := hk.trans i.kpt
  kernel hK := (funext fun _ => hm (i.kernel_not_owned hK)).trans (i.kernel hK)
  space ha := i.space (hs ▸ ha)
  root {as} ha := by
    rw [hs] at ha
    rw [hr, hm (i.not_owned_of_not_pool (i.space ha))]
    exact i.root ha
  shared ht hk := by
    rw [hr] at ht
    rw [hm (i.shared_not_owned ht hk)]
    exact i.shared ht hk
  clear ht hj hx hk := by
    obtain ht | ⟨hp, hp'⟩ := hT ht
    case inl =>
      rw [hm (i.clear_not_owned ht hx)]
      exact i.clear ht hj hx hk
    case inr => exact hz hp hp' hj

-- The entry of a table on the way to a page.
theorem entry {info info' : PtInfo A} (ht : T as ks = some t)
    (hx : path x.va = ks ++ (info :: info' :: ptinfos).map (indexof x.va)) :
    TableEntry (T as (ks ++ [indexof x.va info])) (s.mem t (indexof x.va info)) :=
  i.forest.child ht (Tables.Shape.inner_of_append (S := shape A) (x := x) (path_step hx))

-- The entry of a page is written.
theorem put {v : Option (Word A × BitVec 32)} (ht : T as ks = some t) (hp : path x.va = ks ++ [k]) (he : Holds e v) :
    Inv s₀ (assign sp as x.va v) T (s.store t k e) := by
  have hm {t' j} (h : ¬(t' = t ∧ j = k)) : (s.store t k e).mem t' j = s.mem t' j := by rw [store_mem, if_neg h]
  refine i.of_owned (fun hn => hm ?_) rfl rfl id i.nodup .inl (fun hp hp' => absurd hp hp') rfl ?_
  case refine_1 => exact fun ⟨h, hj⟩ => hn (h ▸ hj ▸ owned_of_path ht hp)
  case refine_2 =>
    rw [assign_page]
    exact i.forest.put ht hp (by rwa [store_mem, if_pos ⟨rfl, rfl⟩]) fun _ => hm

-- A table is put under an entry on the way to a page.
theorem grow {js : List Nat} (ht : T as ks = some t) (hn : T as (ks ++ [k]) = none)
    (hx : path x.va = ks ++ k :: j :: js) (hs : s.pool = p :: pool) :
    Inv s₀ sp (assign T as (ks ++ [k]) (some p)) (s.grow p pool t k) := by
  have hp : p ∈ s.pool := hs ▸ List.mem_cons_self
  have ⟨hp', hd⟩ := List.nodup_cons.mp (hs ▸ i.nodup)
  have hT {as ks} : T as ks ≠ some p := fun h => (i.tables h).right hp
  have hne : p ≠ t := fun h => hT (h ▸ ht)
  have hz {k' : Nat} {y : Page A} (hy : k' ∈ path y.va) : (s.grow p pool t k).mem p k' &&& PTE_P = 0 := by
    rw [grow_mem_table hne (path_lt hy)]
    exact BitVec.zero_and
  refine i.of_owned (fun ho => grow_mem_of_ne ?ne ?slot) rfl rfl (fun hb => hs ▸ List.mem_cons_of_mem _ hb) hd
    (fun ht' => ?tables) (fun ht' hn hj => ?clear) (Tables.assign_of_ne (by simp)) ?forest
  case ne => exact fun h => ho (h ▸ .fresh hp)
  case slot => exact fun ⟨h, hj⟩ => ho (h ▸ hj ▸ owned_of_path ht hx)
  case tables =>
    obtain ⟨_, _, h⟩ | ⟨_, h⟩ := Tables.assign_cases ht'
    case inl => cases h; exact .inr ⟨hp, hp'⟩
    case inr => exact .inl h
  case clear =>
    obtain rfl | ht' := List.mem_cons.mp (hs ▸ ht')
    case inl => exact grow_mem_table hne hj
    case inr => exact absurd ht' hn
  case forest =>
    have hx' : path x.va = (ks ++ [k]) ++ j :: js := by rw [hx, List.append_assoc, List.singleton_append]
    have hi := Tables.Shape.inner_of_append (S := shape A) (x := x) hx'
    refine i.forest.grow ht hi hn hT ?entry (fun ht' h => grow_mem_of_ne ?old h) (fun hj => ?child)
      fun {j y} hy => ?leaf
    case entry =>
      rw [grow_mem_entry]
      exact ⟨i.boot.aligned p (i.pool hp), rfl⟩
    case old => exact fun h => hT (h ▸ ht')
    case child =>
      have ⟨y, hy, _⟩ := hj
      exact hz (y := y) (hy.subset (by simp))
    case leaf =>
      have hy : path y.va = ks ++ [k] ++ [j] := hy
      exact hz (y := y) (by rw [hy]; simp)

theorem gains (hn : T as (ks ++ [k]) = none) (hs : s.pool = p :: pool) :
    Gains as T s (assign T as (ks ++ [k]) (some p)) (s.grow p pool t k) where
  pool ht := hs ▸ List.mem_cons_of_mem _ ht
  tables {as' t'} := by
    have ⟨hp, _⟩ := List.nodup_cons.mp (hs ▸ i.nodup)
    constructor
    · intro ⟨ks', h⟩
      obtain ⟨rfl, _, h⟩ | ⟨_, h⟩ := Tables.assign_cases h
      case inl => cases h; exact .inr ⟨rfl, hs ▸ List.mem_cons_self, hp⟩
      case inr => exact .inl ⟨ks', h⟩
    · intro h
      obtain ⟨ks', h⟩ | ⟨rfl, ht, ht'⟩ := h
      case inl =>
        refine ⟨ks', (Tables.assign_of_ne fun he => ?_).trans h⟩
        rw [he.left, he.right, hn] at h
        cases h
      case inr =>
        obtain rfl | ht := List.mem_cons.mp (hs ▸ ht)
        case inl => exact ⟨_, Tables.assign_self⟩
        case inr => exact absurd ht ht'

end Inv

end Am.X86
