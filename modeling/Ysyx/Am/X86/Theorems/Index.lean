import Ysyx.Tables.Forest
import Ysyx.Am.X86.Basic

-- How addresses are split into the indices of the tables, and entries into a page and flags.

namespace Am.X86

variable {A : Arch} {addr va va' pa t f : Word A} {info : PtInfo A} {prot : BitVec 32} {k : Nat}

section Base

theorem baseof_or : baseof (t ||| f) = baseof t ||| baseof f :=
  BitVec.and_or_distrib_right

-- A page has no bits of a flag, which lies below it.
theorem and_of_baseof (ht : baseof t = t) (hf : baseof f = 0) : t &&& f = 0 :=
  calc t &&& f
    _ = baseof t &&& f := by rw [ht]
    _ = t &&& baseof f := by rw [baseof, baseof, BitVec.and_assoc, BitVec.and_comm f]
    _ = 0 := by rw [hf]; exact BitVec.and_zero

@[simp]
theorem baseof_P : baseof (PTE_P : Word A) = 0 := by
  cases A <;> rfl

@[simp]
theorem baseof_W : baseof (PTE_W : Word A) = 0 := by
  cases A <;> rfl

@[simp]
theorem baseof_U : baseof (PTE_U : Word A) = 0 := by
  cases A <;> rfl

@[simp]
theorem baseof_PS : baseof (PTE_PS : Word A) = 0 := by
  cases A <;> rfl

theorem toNat_mod (h : baseof va = va) : va.toNat % 4096 = 0 := by
  have h : va &&& BitVec.ofNat _ 4095 = 0 := and_of_baseof h (by cases A <;> rfl)
  have h := congrArg BitVec.toNat h
  have h' : (BitVec.ofNat A.width 4095).toNat = 2 ^ 12 - 1 := by cases A <;> rfl
  rw [BitVec.toNat_and, h', Nat.and_two_pow_sub_one_eq_mod] at h
  exact h

end Base

section Entries

theorem or_zero : t ||| 0 = t :=
  BitVec.or_zero

-- A page with flags.
theorem baseof_or_flags (ht : baseof t = t) (hf : baseof f = 0) : baseof (t ||| f) = t := by
  rw [baseof_or, ht, hf, or_zero]

theorem or_and_flag {g : Word A} (ht : baseof t = t) (hg : baseof g = 0) : (t ||| f) &&& g = f &&& g := by
  rw [BitVec.and_or_distrib_right, and_of_baseof ht hg]
  exact BitVec.zero_or

-- The flags of the entries that refer to a table, and of those of `as->ptr`.
theorem table_eq : t ||| PTE_P ||| (PTE_W ||| PTE_U) = t ||| (PTE_P ||| (PTE_W ||| PTE_U)) :=
  BitVec.or_assoc ..

theorem root_eq : t ||| PTE_P ||| PTE_U = t ||| (PTE_P ||| PTE_U) :=
  BitVec.or_assoc ..

theorem pte_eq : pte pa prot =
    pa ||| (PTE_P ||| (PTE_U ||| if prot &&& MMAP_WRITE ≠ 0 then PTE_W else 0)) := by
  rw [pte, BitVec.or_assoc, BitVec.or_assoc]

theorem baseof_table (ht : baseof t = t) : baseof (t ||| PTE_P ||| (PTE_W ||| PTE_U)) = t := by
  rw [table_eq]
  exact baseof_or_flags ht (by cases A <;> rfl)

theorem baseof_root (ht : baseof t = t) : baseof (t ||| PTE_P ||| PTE_U) = t := by
  rw [root_eq]
  exact baseof_or_flags ht (by cases A <;> rfl)

theorem table_leads (ht : baseof t = t) : Leads (t ||| PTE_P ||| (PTE_W ||| PTE_U)) := by
  rw [Leads, table_eq, or_and_flag ht baseof_P, or_and_flag ht baseof_PS]
  cases A <;> decide

theorem root_leads (ht : baseof t = t) : Leads (t ||| PTE_P ||| PTE_U) := by
  rw [Leads, root_eq, or_and_flag ht baseof_P, or_and_flag ht baseof_PS]
  cases A <;> decide

theorem pte_present (ht : baseof pa = pa) : pte pa prot &&& PTE_P ≠ 0 := by
  rw [pte_eq, or_and_flag ht baseof_P]
  split <;> cases A <;> decide

theorem holds_pte (ht : baseof pa = pa) : Holds (pte pa prot) (some (pa, prot)) := by
  refine ⟨pte_present ht, ?_, ?_, ?_⟩
  case refine_1 =>
    rw [pte_eq]
    refine baseof_or_flags ht ?_
    split <;> cases A <;> rfl
  case refine_2 =>
    rw [pte_eq, or_and_flag ht baseof_U]
    split <;> cases A <;> decide
  case refine_3 =>
    rw [pte_eq, or_and_flag ht baseof_W]
    split
    case isTrue h => exact iff_of_true (by cases A <;> decide) h
    case isFalse h => exact iff_of_false (by cases A <;> decide) h

end Entries

section Indices

-- The masks of the levels, shifted, are the lower bits.
theorem mask_eq : ∀ info ∈ (mmu A).pgtables, info.mask.toNat >>> info.shift = 2 ^ info.bits - 1 := by
  cases A <;> decide

theorem bits_le : ∀ info ∈ (mmu A).pgtables, 2 ^ info.bits ≤ entries A := by
  cases A <;> decide

theorem indexof_eq (h : info ∈ (mmu A).pgtables) :
    indexof addr info = addr.toNat / 2 ^ info.shift % 2 ^ info.bits := by
  rw [indexof, BitVec.toNat_ushiftRight, BitVec.toNat_and, Nat.shiftRight_and_distrib, mask_eq info h,
    Nat.and_two_pow_sub_one_eq_mod, Nat.shiftRight_eq_div_pow]

-- The entries that are used lie in the page.
theorem indexof_lt (h : info ∈ (mmu A).pgtables) : indexof addr info < entries A := by
  rw [indexof_eq h]
  exact Nat.lt_of_lt_of_le (Nat.mod_lt _ (Nat.two_pow_pos _)) (bits_le info h)

theorem levels_eq : levels A = (mmu A).pgtables := by
  cases A <;> rfl

theorem top_mem : top A ∈ (mmu A).pgtables :=
  List.get_mem ..

-- The levels are `as->ptr`, the first tables and the others.
theorem levels_cons : ∃ info rest, levels A = info :: top A :: rest ∧ ∀ addr, indexof addr info = 0 := by
  cases A
  case x86 => exact ⟨_, _, rfl, fun addr => (indexof_eq List.mem_cons_self).trans (Nat.mod_one _)⟩
  case x86_64 => exact ⟨_, _, rfl, fun addr => (indexof_eq List.mem_cons_self).trans (Nat.mod_one _)⟩

def path (va : Word A) : List Nat :=
  (levels A).tail.map (indexof va)

-- One level more of a path.
theorem path_step {ks : List Nat} {infos : List (PtInfo A)} (h : path va = ks ++ (info :: infos).map (indexof va)) :
    path va = (ks ++ [indexof va info]) ++ infos.map (indexof va) := by
  rw [h, List.map_cons, List.append_assoc, List.singleton_append]

theorem path_lt (h : k ∈ path va) : k < entries A := by
  have ⟨info, hi, he⟩ := List.mem_map.mp h
  rw [levels_eq] at hi
  exact he ▸ indexof_lt (List.mem_of_mem_tail hi)

theorem path_eq : path va = (levels A).tail.map fun info => va.toNat / 2 ^ info.shift % 2 ^ info.bits :=
  List.map_congr_left fun _ hi => indexof_eq (levels_eq (A := A) ▸ List.mem_of_mem_tail hi)

theorem path_x86 {va : Word .x86} : path va = [va.toNat / 2 ^ 22 % 2 ^ 10, va.toNat / 2 ^ 12 % 2 ^ 10] :=
  path_eq

theorem path_x86_64 {va : Word .x86_64} : path va =
    [va.toNat / 2 ^ 39 % 2 ^ 9, va.toNat / 2 ^ 30 % 2 ^ 9, va.toNat / 2 ^ 21 % 2 ^ 9, va.toNat / 2 ^ 12 % 2 ^ 9] :=
  path_eq

-- A page of the user space.
structure Page (A : Arch) where
  va : Word A
  range : IN_RANGE va (uvm_area A)
  aligned : baseof va = va

@[ext]
theorem Page.ext {x y : Page A} (h : x.va = y.va) : x = y := by
  cases x
  cases y
  cases h
  rfl

instance : DecidableEq (Page A) :=
  fun x y => decidable_of_iff (x.va = y.va) ⟨Page.ext, fun h => by rw [h]⟩

theorem user_range_x86 {va : Word .x86} (h : IN_RANGE va (uvm_area .x86)) :
    0x40000000 ≤ va.toNat ∧ va.toNat < 0x80000000 :=
  ⟨BitVec.le_def.mp h.left, BitVec.lt_def.mp h.right⟩

theorem user_range_x86_64 {va : Word .x86_64} (h : IN_RANGE va (uvm_area .x86_64)) :
    0x100000000000 ≤ va.toNat ∧ va.toNat < 0x108000000000 :=
  ⟨BitVec.le_def.mp h.left, BitVec.lt_def.mp h.right⟩

-- The indices of all levels make up the page.
theorem path_inj : Function.Injective fun x : Page A => path x.va := by
  intro x y h
  refine Page.ext (BitVec.eq_of_toNat_eq ?_)
  have hx := toNat_mod x.aligned
  have hy := toNat_mod y.aligned
  cases A
  case x86 =>
    have := user_range_x86 x.range
    have := user_range_x86 y.range
    simp only [path_x86, List.cons.injEq] at h
    omega
  case x86_64 =>
    have := user_range_x86_64 x.range
    have := user_range_x86_64 y.range
    simp only [path_x86_64, List.cons.injEq] at h
    omega

theorem exists_page : Nonempty (Page A) :=
  ⟨(uvm_area A).start, by cases A <;> decide, by cases A <;> rfl⟩

def shape (A : Arch) : Tables.Shape Nat (Page A) where
  path x := path x.va
  depth := (mmu A).ptlevels
  length_path x := by
    rw [path, List.length_map]
    cases A <;> rfl
  path_inj := path_inj

theorem inner_nil : (shape A).Inner [] := by
  have ⟨x⟩ := exists_page (A := A)
  exact ⟨x, List.nil_prefix, by cases A <;> decide⟩

-- The entries of the first table that `protect` takes over.
def kernel_indices : Arch → List Nat
  | .x86_64 => [0]
  | .x86 => List.range 256 ++ List.range' 1012 12

theorem top_eq_x86 {va : Word .x86} : indexof va (top .x86) = va.toNat / 2 ^ 22 % 2 ^ 10 :=
  indexof_eq top_mem

theorem top_eq_x86_64 {va : Word .x86_64} : indexof va (top .x86_64) = va.toNat / 2 ^ 39 % 2 ^ 9 :=
  indexof_eq top_mem

theorem user_index (h : IN_RANGE va (uvm_area A)) : indexof va (top A) ∉ kernel_indices A := by
  cases A
  case x86 =>
    have := user_range_x86 h
    rw [top_eq_x86, kernel_indices, List.mem_append, List.mem_range, List.mem_range'_1]
    omega
  case x86_64 =>
    have := user_range_x86_64 h
    rw [top_eq_x86_64, kernel_indices, List.mem_singleton]
    omega

-- The first entry on the way to a page of the user space.
theorem not_kernel_index {x : Page A} {ks : List Nat} (h : path x.va = k :: ks) : k ∉ kernel_indices A := by
  have ⟨info, rest, hl, _⟩ := levels_cons (A := A)
  rw [path, hl] at h
  exact (List.cons.inj h).left ▸ user_index x.range

theorem inArea_toNat {area : Area A} (h : InArea addr area) :
    (2 ^ A.width - area.start.toNat + addr.toNat) % 2 ^ A.width < (area.end - area.start).toNat := by
  have h := BitVec.lt_def.mp h
  rwa [BitVec.toNat_sub] at h

theorem kernel_index (h : ∃ vma ∈ vm_areas A, vma.kernel ∧ InArea addr vma.area) :
    indexof addr (top A) ∈ kernel_indices A := by
  have ⟨vma, hm, hk, ha⟩ := h
  cases A
  case x86 =>
    rw [top_eq_x86, kernel_indices, List.mem_append, List.mem_range, List.mem_range'_1]
    simp only [vm_areas, List.mem_cons, List.not_mem_nil, or_false] at hm
    obtain rfl | rfl | rfl := hm
    case inl => cases hk
    case inr.inl =>
      have : (2 ^ 32 - 0 + addr.toNat) % 2 ^ 32 < 0x40000000 := inArea_toNat ha
      omega
    case inr.inr =>
      have : (2 ^ 32 - 0xfd000000 + addr.toNat) % 2 ^ 32 < 0x03000000 := inArea_toNat ha
      have : addr.toNat < 2 ^ 32 := addr.isLt
      omega
  case x86_64 =>
    rw [top_eq_x86_64, kernel_indices, List.mem_singleton]
    simp only [vm_areas, List.mem_cons, List.not_mem_nil, or_false] at hm
    obtain rfl | rfl := hm
    case inl => cases hk
    case inr =>
      have : (2 ^ 64 - 0 + addr.toNat) % 2 ^ 64 < 0x008000000000 := inArea_toNat ha
      omega

end Indices

end Am.X86
