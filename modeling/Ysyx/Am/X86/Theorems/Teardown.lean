import Mathlib.Data.List.Nodup
import Ysyx.Am.X86.Teardown
import Ysyx.Am.X86.Theorems.Init
import Ysyx.Am.X86.Theorems.Run

-- `unprotect` frees what the space owns.

namespace Am.X86

open Function (update)
open Tables (Forest)

variable {A : Arch} {s₀ s s' : State A} {as as' r t t' : Word A} {c : Call A} {cs : List (Call A)} {j level : Nat}
variable {sp : Spaces A} {T : Word A → List Nat → Option (Word A)} {ks l : List Nat} {own : Word A → List (Word A)}
variable {info : PtInfo A} {infos : List (PtInfo A)} {pgfree : Word A → State A → State A} {σ σ' σ₁ σ₂ : Freeing A}
variable {L L₁ L₂ : List (Word A)}

theorem Owns.run (o : Owns s₀ cs s own) : Run s₀ cs s := by
  induction o
  case nil b => exact .nil b
  case cons h ih => exact ih.cons h

-- The callback does not change the other pages of `pgalloc`.
def Local (s₀ : State A) (pgfree : Word A → State A → State A) : Prop :=
  ∀ base s, ∀ t ∈ s₀.pool, t ≠ base → (pgfree base s).mem t = s.mem t

-- From `σ` to `σ'` the pages `L` are freed.
structure Frees (s₀ : State A) (L : List (Word A)) (σ σ' : Freeing A) : Prop where
  freed : σ'.freed = σ.freed ++ L
  nodup : L.Nodup
  frame : ∀ t ∈ s₀.pool, t ∉ L → σ'.mem t = σ.mem t

namespace Frees

theorem refl : Frees s₀ [] σ σ where
  freed := (List.append_nil _).symm
  nodup := List.nodup_nil
  frame _ _ _ := rfl

theorem trans (h₁ : Frees s₀ L₁ σ σ₁) (h₂ : Frees s₀ L₂ σ₁ σ₂) (hd : L₁.Disjoint L₂) : Frees s₀ (L₁ ++ L₂) σ σ₂ where
  freed := by rw [h₂.freed, h₁.freed, List.append_assoc]
  nodup := List.nodup_append'.mpr ⟨h₁.nodup, h₂.nodup, hd⟩
  frame t ht hn := by
    have ⟨hn₁, hn₂⟩ := not_or.mp (mt List.mem_append.mpr hn)
    rw [h₂.frame t ht hn₂, h₁.frame t ht hn₁]

theorem free (hf : Local s₀ pgfree) : Frees s₀ [t] σ (free pgfree t σ) where
  freed := rfl
  nodup := List.nodup_singleton t
  frame t' ht hn := hf t σ.toState t' ht (mt List.mem_singleton.mpr hn)

end Frees

theorem table_user (ht : baseof t = t) : (t ||| PTE_P ||| (PTE_W ||| PTE_U)) &&& PTE_U ≠ 0 := by
  rw [table_eq, or_and_flag ht baseof_U]
  cases A <;> decide

theorem root_user (ht : baseof t = t) : (t ||| PTE_P ||| PTE_U) &&& PTE_U ≠ 0 := by
  rw [root_eq, or_and_flag ht baseof_U]
  cases A <;> decide

-- The tables of `as` from the path `ks` on.
def Below (T : Word A → List Nat → Option (Word A)) (as : Word A) (ks : List Nat) (t : Word A) : Prop :=
  ∃ js, T as (ks ++ js) = some t

theorem Below.self (h : T as ks = some t) : Below T as ks t :=
  ⟨[], by rwa [List.append_nil]⟩

theorem Below.up (h : Below T as (ks ++ [j]) t) : Below T as ks t :=
  have ⟨js, h⟩ := h
  ⟨j :: js, by rwa [List.append_assoc, List.singleton_append] at h⟩

theorem Below.cases (h : Below T as ks t) : T as ks = some t ∨ ∃ j, Below T as (ks ++ [j]) t := by
  have ⟨js, h⟩ := h
  cases js
  case nil => exact .inl (by rwa [List.append_nil] at h)
  case cons j js => exact .inr ⟨j, js, by rwa [List.append_assoc, List.singleton_append]⟩

section Levels

theorem level_zero : ∃ info : PtInfo A, levels A = info :: (levels A).tail ∧ info.bits = 0 := by
  cases A <;> exact ⟨_, rfl, rfl⟩

theorem length_levels : (levels A).tail.length = (shape A).depth := by
  cases A <;> rfl

variable {n : Nat} (hi : (levels A).tail.drop n = info :: infos)
include hi

theorem mem_pgtables : info ∈ (mmu A).pgtables := by
  rw [← levels_eq]
  exact List.mem_of_mem_tail (List.mem_of_mem_drop (hi ▸ List.mem_cons_self))

theorem length_infos : n + infos.length + 1 = (shape A).depth := by
  have := congrArg List.length hi
  rw [List.length_drop, length_levels, List.length_cons] at this
  omega

end Levels

namespace Inv

variable (i : Inv s₀ sp T s)
include i

theorem below_pool (h : Below T as ks t) : t ∈ s₀.pool :=
  have ⟨_, h⟩ := h
  (i.tables h).left

theorem not_below_self (h : T as ks = some t) : ¬Below T as (ks ++ [j]) t := by
  intro ⟨js, h'⟩
  have := (i.forest.inj h h').right
  simp at this

theorem below_disjoint (hj : j ∉ l) (h : Below T as (ks ++ [j]) t) : ∀ k ∈ l, ¬Below T as (ks ++ [k]) t := by
  intro k hk ⟨js', h'⟩
  have ⟨js, h⟩ := h
  have := (i.forest.inj h h').right
  simp only [List.append_assoc, List.singleton_append, List.append_cancel_left_eq, List.cons.injEq] at this
  exact hj (this.left ▸ hk)

-- The entries that are neither for a table nor for a page of the user are passed over.
theorem passed_over (hb : Supervisor s₀) (ht : T as ks = some t) (hn : T as (ks ++ [j]) = none)
    (hl : (ks ++ [j]).length < (shape A).depth) (hj : j < entries A) :
    ¬(s.mem t j &&& PTE_P ≠ 0 ∧ s.mem t j &&& PTE_U ≠ 0) := by
  intro ⟨hp, hu⟩
  by_cases hx : ∃ x : Page A, ks ++ [j] <+: path x.va
  case pos =>
    have ⟨x, hx⟩ := hx
    have he := i.forest.child ht ⟨x, hx, hl⟩
    rw [hn] at he
    exact hp he
  case neg =>
    have hx := not_exists.mp hx
    by_cases hk : ks = [] ∧ j ∈ kernel_indices A
    case pos =>
      obtain ⟨rfl, hk⟩ := hk
      rw [i.shared ht hk] at hu
      exact hu (hb j hk)
    case neg =>
      rw [i.clear ht hj hx fun hks hj => hk ⟨hks, hj⟩] at hp
      exact hp BitVec.zero_and

-- The tables of a subtree are freed, and its entries are those of `s` until then.

theorem agree_frame (hf : Frees s₀ L σ σ') (ha : ∀ t, Below T as ks t → σ.mem t = s.mem t)
    (hd : ∀ t ∈ L, ¬Below T as ks t) : ∀ t, Below T as ks t → σ'.mem t = s.mem t := by
  intro t ht
  rw [hf.frame t (i.below_pool ht) fun hm => hd t hm ht, ha t ht]

-- The loop over the entries of a table, where `step` is what it does at one of them.
theorem foldl_frees {step : Freeing A → Nat → Freeing A} (ht : T as ks = some t) (hl : l.Nodup)
    (hs : ∀ σ, ∀ j ∈ l, σ.mem t j = s.mem t j → (∀ t', Below T as (ks ++ [j]) t' → σ.mem t' = s.mem t') →
      ∃ L, Frees s₀ L σ (step σ j) ∧ ∀ t', t' ∈ L ↔ Below T as (ks ++ [j]) t')
    (hm : σ.mem t = s.mem t) (ha : ∀ j ∈ l, ∀ t', Below T as (ks ++ [j]) t' → σ.mem t' = s.mem t') :
    ∃ L, Frees s₀ L σ (l.foldl step σ) ∧ ∀ t', t' ∈ L ↔ ∃ j ∈ l, Below T as (ks ++ [j]) t' := by
  induction l generalizing σ
  case nil => exact ⟨[], .refl, by simp⟩
  case cons j l ih =>
    have ⟨hj, hl⟩ := List.nodup_cons.mp hl
    have ⟨L₁, h₁, hL₁⟩ := hs σ j List.mem_cons_self (congrFun hm j) (ha j List.mem_cons_self)
    have hm' : (step σ j).mem t = s.mem t := by
      rw [h₁.frame t (i.tables ht).left fun h => i.not_below_self ht ((hL₁ t).mp h), hm]
    have ⟨L₂, h₂, hL₂⟩ := ih hl (fun σ k hk => hs σ k (List.mem_cons_of_mem _ hk)) hm' fun k hk =>
      i.agree_frame h₁ (ha k (List.mem_cons_of_mem _ hk)) fun t' h =>
        i.below_disjoint hj ((hL₁ t').mp h) k hk
    refine ⟨L₁ ++ L₂, h₁.trans h₂ fun t' h h' => ?_, fun t' => ?_⟩
    case refine_1 =>
      have ⟨k, hk, hb⟩ := (hL₂ t').mp h'
      exact i.below_disjoint hj ((hL₁ t').mp h) k hk hb
    case refine_2 => rw [List.mem_append, hL₁, hL₂, List.exists_mem_cons_iff]

-- The index of a table in the one above it.
theorem lt_of_below (hi : (levels A).tail.drop ks.length = info :: infos) (h : Below T as (ks ++ [j]) t) :
    j < 2 ^ info.bits := by
  have ⟨js, h⟩ := h
  have ⟨x, ⟨rest, hx⟩, _⟩ := i.forest.inner h
  have hx : (levels A).tail.map (indexof x.va) = ks ++ j :: (js ++ rest) := by
    rw [← List.singleton_append, ← List.append_assoc, ← List.append_assoc]
    exact hx.symm
  have hd := congrArg (List.drop ks.length) hx
  rw [← List.map_drop, hi, List.map_cons, List.drop_left] at hd
  rw [← (List.cons.inj hd).left, indexof_eq (mem_pgtables hi)]
  exact Nat.mod_lt _ (Nat.two_pow_pos _)

-- What the loop does at an entry.
theorem entry_frees (hb : Supervisor s₀) (ht : T as ks = some t)
    (hi : (levels A).tail.drop ks.length = info :: infos) (hj : j < 2 ^ info.bits) (he : σ.mem t j = s.mem t j)
    (ih : ∀ t', T as (ks ++ [j]) = some t' →
      ∃ L, Frees s₀ L σ (teardown pgfree infos (level + 1) t' σ) ∧ ∀ t, t ∈ L ↔ Below T as (ks ++ [j]) t) :
    ∃ L, Frees s₀ L σ (if σ.mem t j &&& PTE_P ≠ 0 ∧ σ.mem t j &&& PTE_U ≠ 0 then
      teardown pgfree infos (level + 1) (baseof (σ.mem t j)) σ else σ) ∧
      ∀ t', t' ∈ L ↔ Below T as (ks ++ [j]) t' := by
  rw [he]
  cases hT : T as (ks ++ [j])
  case none =>
    have hn : ∀ t', t' ∈ [] ↔ Below T as (ks ++ [j]) t' := fun t' =>
      iff_of_false List.not_mem_nil fun ⟨js, h⟩ => by rw [i.forest.none_append hT] at h; cases h
    refine ⟨[], ?_, hn⟩
    cases infos
    case nil =>
      rw [teardown, ite_self]
      exact .refl
    case cons =>
      have hl := length_infos hi
      have hlen : (ks ++ [j]).length < (shape A).depth := by
        rw [List.length_append, List.length_singleton, ← hl, List.length_cons]
        omega
      have hj := Nat.lt_of_lt_of_le hj (bits_le info (mem_pgtables hi))
      rw [if_neg (i.passed_over hb ht hT hlen hj)]
      exact .refl
  case some t' =>
    have ⟨hb, he⟩ : TableEntry (some t') (s.mem t j) := hT ▸ i.forest.child ht (i.forest.inner hT)
    rw [he, if_pos ⟨(table_leads hb).left, table_user hb⟩, baseof_table hb]
    exact ih t' hT

theorem teardown_frees (hb : Supervisor s₀) (hf : Local s₀ pgfree) (ht : T as ks = some t)
    (hi : (levels A).tail.drop ks.length = infos) (hlevel : 1 ≤ level)
    (ha : ∀ t, Below T as ks t → σ.mem t = s.mem t) :
    ∃ L, Frees s₀ L σ (teardown pgfree infos level t σ) ∧ ∀ t', t' ∈ L ↔ Below T as ks t' := by
  induction infos generalizing ks t level σ
  case nil =>
    have ⟨_, _, hl⟩ := i.forest.inner ht
    have := List.drop_eq_nil_iff.mp hi
    rw [length_levels] at this
    omega
  case cons info infos ih =>
    have hd (j) : (levels A).tail.drop (ks ++ [j]).length = infos := by
      rw [List.length_append, List.length_singleton, ← List.drop_drop, hi, List.drop_one, List.tail_cons]
    rw [teardown, Nat.one_shiftLeft, if_pos hlevel]
    have ⟨L, h, hL⟩ := i.foldl_frees (l := List.range (2 ^ info.bits)) ht List.nodup_range
      (fun σ j hj he ha => i.entry_frees hb ht hi (List.mem_range.mp hj) he fun t' ht' =>
        ih ht' (hd j) (Nat.le_add_left 1 level) ha)
      (ha t (.self ht)) fun j _ t' h => ha t' h.up
    refine ⟨L ++ [t], h.trans (.free hf) ?disjoint, fun t' => ?mem⟩
    case disjoint =>
      rw [List.disjoint_singleton, hL]
      intro ⟨j, _, hj⟩
      exact i.not_below_self ht hj
    case mem =>
      rw [List.mem_append, List.mem_singleton, hL]
      constructor
      · intro ht'
        obtain ⟨j, _, hj⟩ | rfl := ht'
        case inl => exact hj.up
        case inr => exact .self ht
      · intro ht'
        obtain ht' | ⟨j, hj⟩ := ht'.cases
        case inl => exact .inr (Option.some.inj (ht'.symm.trans ht))
        case inr => exact .inl ⟨j, List.mem_range.mpr (i.lt_of_below hi hj), hj⟩

-- At level 0 there is one entry, which refers to the first table.
theorem unprotect_freed (hb : Supervisor s₀) (hf : Local s₀ pgfree) (hs : s.spaces as ≠ none) :
    (unprotect pgfree as s).freed.Nodup ∧ ∀ t, t ∈ (unprotect pgfree as s).freed ↔ ∃ ks, T as ks = some t := by
  have ⟨r, ht, hr, he⟩ := i.first hs
  have ⟨info, hl, hz⟩ := level_zero (A := A)
  let σ : Freeing A := { s with freed := [] }
  have ha (t) (_ : Below T as [] t) : σ.mem t = s.mem t := rfl
  have ⟨L, h, hL⟩ := i.teardown_frees hb hf ht (List.drop_zero ..) le_rfl ha
  have hu : unprotect pgfree as s = teardown pgfree (levels A).tail 1 r σ := by
    have hc : s.mem as 0 &&& PTE_P ≠ 0 ∧ s.mem as 0 &&& PTE_U ≠ 0 := he ▸ ⟨(root_leads hr).left, root_user hr⟩
    rw [unprotect, hl, teardown, hz, Nat.one_shiftLeft, Nat.pow_zero, List.range_one, List.foldl_cons, List.foldl_nil,
      if_neg (by decide), if_pos hc, he, baseof_root hr, List.tail_cons]
  have hfreed : (unprotect pgfree as s).freed = L := by
    rw [hu, h.freed]
    rfl
  rw [hfreed]
  exact ⟨h.nodup, hL⟩

end Inv

theorem mem_taken : t ∈ taken s s' ↔ t ∈ s.pool ∧ t ∉ s'.pool := by
  simp [taken]

-- The pages that have been taken for a space are its tables.
structure Owned (T : Word A → List Nat → Option (Word A)) (own : Word A → List (Word A)) : Prop where
  nodup : ∀ as, (own as).Nodup
  mem : ∀ {as t}, t ∈ own as ↔ ∃ ks, T as ks = some t

namespace Owned

variable (i : Inv s₀ sp T s) (o : Owned T own)
include i o

theorem protect {upt : Word A} {pool : List (Word A)} (hp : s.pool = upt :: pool) (hp' : s'.pool = pool) :
    Owned (Forest.replant T as upt) (Call.own own (taken s s') (.protect as)) where
  nodup as' := by
    rw [Call.own]
    by_cases h : as' = as
    case pos =>
      rw [h, Function.update_self]
      exact i.nodup.filter _
    case neg =>
      rw [Function.update_of_ne h]
      exact o.nodup as'
  mem {as' t} := by
    rw [Call.own]
    by_cases h : as' = as
    case pos =>
      have ⟨hn, _⟩ := List.nodup_cons.mp (hp ▸ i.nodup)
      rw [h, Function.update_self, mem_taken, hp, hp', List.mem_cons]
      constructor
      · intro ⟨ht, ht'⟩
        exact ⟨[], Forest.replant_nil.trans (congrArg some (ht.resolve_right ht').symm)⟩
      · intro ⟨ks, ht⟩
        obtain ⟨_, _, rfl⟩ | ⟨hne, _⟩ := Forest.replant_cases ht
        case inl => exact ⟨.inl rfl, hn⟩
        case inr => exact absurd rfl hne
    case neg =>
      rw [Function.update_of_ne h, Forest.replant_of_ne h]
      exact o.mem

theorem map {T' : Word A → List Nat → Option (Word A)} {va pa : Word A} {prot : BitVec 32}
    (g : Gains as T s T' s') : Owned T' (Call.own own (taken s s') (.map as va pa prot)) where
  nodup as' := by
    rw [Call.own]
    by_cases h : as' = as
    case pos =>
      rw [h, Function.update_self]
      refine List.nodup_append'.mpr ⟨o.nodup as, i.nodup.filter _, fun t ht ht' => ?_⟩
      have ⟨_, ht⟩ := o.mem.mp ht
      exact (i.tables ht).right (mem_taken.mp ht').left
    case neg =>
      rw [Function.update_of_ne h]
      exact o.nodup as'
  mem {as' t} := by
    rw [Call.own, g.tables]
    by_cases h : as' = as
    case pos => rw [h, Function.update_self, List.mem_append, o.mem, mem_taken, and_iff_right rfl]
    case neg =>
      rw [Function.update_of_ne h, o.mem]
      exact (or_iff_left fun he => h he.left).symm

end Owned

theorem Owns.inv (o : Owns s₀ cs s own) : ∃ T, Inv s₀ (spaces cs) T s ∧ Owned T own := by
  induction o
  case nil b => exact ⟨_, inv_boot b, fun _ => List.nodup_nil, by simp⟩
  case cons h ih =>
    have ⟨T, i, o⟩ := ih
    cases h
    case protect as ha hk h =>
      have ⟨upt, pool, hp, hs⟩ := protect_ok i.kpt_not_mem h
      exact ⟨_, hs ▸ i.protect ha hk hp, o.protect i hp (hs ▸ rfl)⟩
    case map hs h =>
      have ⟨T', i', _, g⟩ := i.map_ok hs h
      exact ⟨T', i', o.map i g⟩

-- What `unprotect` has to achieve. A page of the user is none of those that `pgalloc` returns for tables.
structure FreesOwned (s₀ : State A) (cs : List (Call A)) (own : Word A → List (Word A)) (as : Word A)
    (freed : List (Word A)) : Prop where
  owned : freed.Perm (own as)
  nodup : freed.Nodup
  kernel : ∀ t ∈ freed, ∀ ptinfos, ¬Kernel s₀ ptinfos t
  others : ∀ as' ≠ as, ∀ t ∈ own as', t ∉ freed
  user : ∀ as' va pa prot, .map as' va pa prot ∈ cs → pa ∉ s₀.pool → pa ∉ freed

theorem unprotect_frees_owned (hb : Booted s₀) (hf : Local s₀ pgfree) (o : Owns s₀ cs s own)
    (hs : .protect as ∈ cs) : FreesOwned s₀ cs own as (unprotect pgfree as s).freed := by
  have ⟨T, i, o'⟩ := o.inv
  have ⟨hn, hm⟩ := i.unprotect_freed hb.supervisor hf <| o.run.spaces_iff.mpr hs
  have hpool {t} (ht : t ∈ (unprotect pgfree as s).freed) : t ∈ s₀.pool :=
    have ⟨_, ht⟩ := (hm t).mp ht
    (i.tables ht).left
  exact {
    owned := (List.perm_ext_iff_of_nodup hn (o'.nodup as)).mpr fun t => (hm t).trans o'.mem.symm
    nodup := hn
    kernel := fun t ht ptinfos => i.boot.kernel t (hpool ht) ptinfos
    others := fun as' hne t ht ht' => by
      have ⟨_, ht⟩ := o'.mem.mp ht
      have ⟨_, ht'⟩ := (hm t).mp ht'
      exact hne (i.forest.inj ht ht').left
    user := fun _ _ _ _ _ hp ht => hp (hpool ht) }

-- The tables for one page are four pages, all that the machine has.
theorem unprotect_frees_owned_map : ∃ s own, own 0x8 = [0x200000, 0x201000, 0x202000, 0x203000] ∧
    FreesOwned booted [.map 0x8 0x100000000000 0x300000 MMAP_WRITE, .protect 0x8] own 0x8
      (unprotect (fun _ s => s) 0x8 s).freed := by
  have ⟨s₁, s, hp, hm, hp₁, hp₂⟩ := booted_calls
  have o := (Owns.cons (.nil booted_boot) hp).cons hm
  refine ⟨s, _, ?_, unprotect_frees_owned (.x86_64 booted_eq) (fun _ _ _ _ _ => rfl) o (by simp)⟩
  simp only [Call.own, Function.update_self, taken, hp₁, hp₂]
  decide

end Am.X86
