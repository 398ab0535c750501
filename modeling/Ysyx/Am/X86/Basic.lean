import Mathlib.Algebra.Group.Nat.Defs
import Mathlib.Logic.Function.Basic
import Ysyx.Monads.EState

-- The page tables of the platforms `x86-qemu` and `x86_64-qemu`.

namespace Am.X86

open Function (update)

inductive Arch
  | x86
  | x86_64

def Arch.width : Arch → Nat
  | x86 => 32
  | x86_64 => 64

-- `uintptr_t`
abbrev Word (A : Arch) := BitVec A.width

structure PtInfo (A : Arch) where
  name : String
  mask : Word A
  shift : Nat
  bits : Nat

structure MmuConfig (A : Arch) where
  ptlevels : Nat
  pgsize : Nat
  pgtables : List (PtInfo A)

structure Area (A : Arch) where
  start : Word A
  «end» : Word A

structure VmArea (A : Arch) where
  area : Area A
  kernel : Bool

structure AddrSpace (A : Arch) where
  pgsize : Nat
  area : Area A

def IN_RANGE {A : Arch} (ptr : Word A) (area : Area A) : Prop :=
  area.start ≤ ptr ∧ ptr < area.end

instance {A : Arch} {ptr : Word A} {area : Area A} : Decidable (IN_RANGE ptr area) :=
  inferInstanceAs (Decidable (_ ∧ _))

def mmu : (A : Arch) → MmuConfig A
  | .x86_64 => {
      ptlevels := 4
      pgsize := 4096
      pgtables := [
        { name := "CR3", mask := 0x000000000000#64, shift := 0, bits := 0 },
        { name := "PML4", mask := 0xff8000000000#64, shift := 39, bits := 9 },
        { name := "PDPT", mask := 0x007fc0000000#64, shift := 30, bits := 9 },
        { name := "PD", mask := 0x00003fe00000#64, shift := 21, bits := 9 },
        { name := "PT", mask := 0x0000001ff000#64, shift := 12, bits := 9 }] }
  | .x86 => {
      ptlevels := 2
      pgsize := 4096
      pgtables := [
        { name := "CR3", mask := 0x00000000#32, shift := 0, bits := 0 },
        { name := "PD", mask := 0xffc00000#32, shift := 22, bits := 10 },
        { name := "PT", mask := 0x003ff000#32, shift := 12, bits := 10 }] }

def vm_areas : (A : Arch) → List (VmArea A)
  | .x86_64 => [
      { area := ⟨0x100000000000#64, 0x108000000000#64⟩, kernel := false },
      { area := ⟨0x000000000000#64, 0x008000000000#64⟩, kernel := true }]
  | .x86 => [
      { area := ⟨0x40000000#32, 0x80000000#32⟩, kernel := false },
      { area := ⟨0x00000000#32, 0x40000000#32⟩, kernel := true },
      { area := ⟨0xfd000000#32, 0x00000000#32⟩, kernel := true }]

variable {A : Arch}

def uvm_area (A : Arch) : Area A :=
  ((vm_areas A).get ⟨0, by cases A <;> decide⟩).area

def PTE_P : Word A := BitVec.ofNat _ 0x001
def PTE_W : Word A := BitVec.ofNat _ 0x002
def PTE_U : Word A := BitVec.ofNat _ 0x004
def PTE_PS : Word A := BitVec.ofNat _ 0x080

def MMAP_NONE : BitVec 32 := 0
def MMAP_READ : BitVec 32 := 1
def MMAP_WRITE : BitVec 32 := 2

def ROUNDDOWN (a : Word A) (sz : Nat) : Word A :=
  a &&& ~~~BitVec.ofNat _ (sz - 1)

-- The number of entries of a page: `mmu.pgsize / sizeof(uintptr_t)`.
def entries (A : Arch) : Nat :=
  (mmu A).pgsize / (A.width / 8)

-- The memory has the words of each array by the address of its first one: those of the pages, and the one of
-- `&as->ptr`. `spaces` has the other members of `*as`, and `pool` the pages that `pgalloc` is going to return.
@[ext]
structure State (A : Arch) where
  mem : Word A → Nat → Word A
  spaces : Word A → Option (AddrSpace A)
  kpt : Word A
  pool : List (Word A)

def State.store (s : State A) (pt : Word A) (index : Nat) (entry : Word A) : State A :=
  { s with mem := update s.mem pt (update (s.mem pt) index entry) }

abbrev Exec (A : Arch) := EStateM String (State A)

def panic_on (cond : Prop) [Decidable cond] (text : String) : Exec A Unit :=
  if cond then throw text else pure ()

def bug {α : Type} : Exec A α :=
  throw "internal error (likely a bug in AM)"

-- It returns `NULL` when there is no page.
def pgalloc : Exec A (Word A) := fun s =>
  match s.pool with
  | [] => .ok 0 s
  | base :: pool => .ok base { s with pool := pool }

def pgallocz : Exec A (Word A) := do
  let base ← pgalloc
  panic_on (base = 0) "cannot allocate page"
  modify fun s => { s with mem := update s.mem base fun i => if i < entries A then 0 else s.mem base i }
  pure base

def indexof (addr : Word A) (info : PtInfo A) : Nat :=
  ((addr &&& info.mask) >>> info.shift).toNat

def baseof (addr : Word A) : Word A :=
  addr &&& ~~~BitVec.ofNat _ ((mmu A).pgsize - 1)

-- The levels from `&as->ptr` to the last tables.
def levels (A : Arch) : List (PtInfo A) :=
  (mmu A).pgtables.take ((mmu A).ptlevels + 1)

-- The loop over the levels that are left: the entry is returned as its table and its index.
def ptwalk (addr flags : Word A) : List (PtInfo A) → Word A → Exec A (Word A × Nat)
  | [], _ => bug
  | ptinfo :: ptinfos, pt =>
    let index := indexof addr ptinfo
    if ptinfos.isEmpty then
      pure (pt, index)
    else do
      let entry := (← get).mem pt index
      if entry &&& PTE_P = 0 then
        let next_page ← pgallocz
        modify fun s => s.store pt index (next_page ||| PTE_P ||| flags)
        ptwalk addr flags ptinfos next_page
      else
        ptwalk addr flags ptinfos (baseof entry)

-- The loop over the addresses of an area. It is given more rounds than a table has entries.
def copyArea (info : PtInfo A) (upt stop : Word A) : Nat → Word A → Exec A Unit
  | 0, _ => bug
  | fuel + 1, cur =>
    if cur = stop then
      pure ()
    else do
      modify fun s => s.store upt (indexof cur info) (s.mem s.kpt (indexof cur info))
      copyArea info upt stop fuel (cur + (1 : Word A) <<< info.shift)

def copyAreas (info : PtInfo A) (upt : Word A) : List (VmArea A) → Exec A Unit
  | [] => pure ()
  | vma :: vmas => do
    if vma.kernel then
      copyArea info upt vma.area.end (2 ^ info.bits + 1) vma.area.start
    copyAreas info upt vmas

-- The level-1 page table.
def top (A : Arch) : PtInfo A :=
  (mmu A).pgtables.get ⟨1, by cases A <;> decide⟩

def protect (as : Word A) : Exec A Unit := do
  let upt ← pgallocz
  copyAreas (top A) upt (vm_areas A)
  modify fun s => { s with spaces := update s.spaces as (some { pgsize := (mmu A).pgsize, area := uvm_area A }) }
  modify fun s => s.store as 0 (upt ||| PTE_P ||| PTE_U)

def pte (pa : Word A) (prot : BitVec 32) : Word A :=
  pa ||| PTE_P ||| PTE_U ||| (if prot &&& MMAP_WRITE ≠ 0 then PTE_W else 0)

def map (as va pa : Word A) (prot : BitVec 32) : Exec A Unit := do
  panic_on (¬IN_RANGE va (uvm_area A)) "mapping an invalid address"
  panic_on (va ≠ ROUNDDOWN va (mmu A).pgsize ∨ pa ≠ ROUNDDOWN pa (mmu A).pgsize) "non-page-boundary address"
  let (pt, index) ← ptwalk va (PTE_W ||| PTE_U) (levels A) as
  let ptentry := (← get).mem pt index
  if prot = MMAP_NONE then
    panic_on (ptentry &&& PTE_P = 0) "unmapping a non-mapped page"
    modify fun s => s.store pt index 0
  else
    panic_on (ptentry &&& PTE_P ≠ 0) "remapping a mapped page"
    modify fun s => s.store pt index (pte pa prot)
  let _ ← ptwalk va (PTE_W ||| PTE_U) (levels A) as

-- An entry that leads the processor to a table. `x86` does not set `CR4.PSE`, and its entries are never large pages.
def Leads (e : Word A) : Prop :=
  e &&& PTE_P ≠ 0 ∧ ¬(A = .x86_64 ∧ e &&& PTE_PS ≠ 0)

instance : DecidableEq Arch
  | .x86, .x86 | .x86_64, .x86_64 => isTrue rfl
  | .x86, .x86_64 | .x86_64, .x86 => isFalse nofun

instance {e : Word A} : Decidable (Leads e) :=
  inferInstanceAs (Decidable (_ ∧ _))

-- The entry at which the walk of the processor ends.
def walk (mem : Word A → Nat → Word A) (addr : Word A) : List (PtInfo A) → Word A → Word A
  | [], _ => 0
  | ptinfo :: ptinfos, pt =>
    let entry := mem pt (indexof addr ptinfo)
    if ptinfos.isEmpty then
      entry
    else if Leads entry then
      walk mem addr ptinfos (baseof entry)
    else
      entry

-- The tables of the kernel, with the levels that are left.
inductive Kernel (s : State A) : List (PtInfo A) → Word A → Prop
  | root : Kernel s (levels A).tail s.kpt
  | child {ptinfo ptinfo' : PtInfo A} {ptinfos : List (PtInfo A)} {pt : Word A} {index : Nat} :
    Kernel s (ptinfo :: ptinfo' :: ptinfos) pt → index < entries A → Leads (s.mem pt index) →
    Kernel s (ptinfo' :: ptinfos) (baseof (s.mem pt index))

-- The pages of `pgalloc` are different, lie on page boundaries, and are not tables of the kernel.
structure Boot (s : State A) : Prop where
  nodup : s.pool.Nodup
  aligned : ∀ base ∈ s.pool, baseof base = base
  kernel : ∀ base ∈ s.pool, ∀ ptinfos, ¬Kernel s ptinfos base
  spaces : ∀ as, s.spaces as = none

inductive Call (A : Arch)
  | protect (as : Word A)
  | map (as va pa : Word A) (prot : BitVec 32)

-- The calls that return, from the state `s₀` behind `vme_init`. An `AddrSpace` does not lie in a page of `pgalloc`
-- or in a table of the kernel.
inductive Step (s₀ s : State A) : Call A → State A → Prop
  | protect {as : Word A} {s' : State A} : as ∉ s₀.pool → (∀ ptinfos, ¬Kernel s₀ ptinfos as) →
    protect as s = .ok () s' → Step s₀ s (.protect as) s'
  | map {as va pa : Word A} {prot : BitVec 32} {s' : State A} : s.spaces as ≠ none →
    map as va pa prot s = .ok () s' → Step s₀ s (.map as va pa prot) s'

-- The latest call comes first.
inductive Run (s₀ : State A) : List (Call A) → State A → Prop
  | nil : Boot s₀ → Run s₀ [] s₀
  | cons {c : Call A} {cs : List (Call A)} {s s' : State A} : Run s₀ cs s → Step s₀ s c s' → Run s₀ (c :: cs) s'

-- What the tables are for: a map from the pages of each space to their `pa` and `prot`.
abbrev Spaces (A : Arch) := Word A → Word A → Option (Word A × BitVec 32)

def Call.apply (sp : Spaces A) : Call A → Spaces A
  | protect as => update sp as fun _ => none
  | map as va pa prot => update sp as (update (sp as) va (if prot = MMAP_NONE then none else some (pa, prot)))

def spaces : List (Call A) → Spaces A
  | [] => fun _ _ => none
  | c :: cs => c.apply (spaces cs)

-- The entry of a page that has been mapped, or not.
def Holds (entry : Word A) : Option (Word A × BitVec 32) → Prop
  | none => entry &&& PTE_P = 0
  | some (pa, prot) => entry &&& PTE_P ≠ 0 ∧ baseof entry = pa ∧ entry &&& PTE_U ≠ 0 ∧
    (entry &&& PTE_W ≠ 0 ↔ prot &&& MMAP_WRITE ≠ 0)

-- An area may end at the end of the address space.
def InArea (addr : Word A) (area : Area A) : Prop :=
  addr - area.start < area.end - area.start

structure Correct (s₀ : State A) (cs : List (Call A)) (s : State A) : Prop where
  user : ∀ as va, .protect as ∈ cs → IN_RANGE va (uvm_area A) → baseof va = va →
    Holds (walk s.mem va (levels A) as) (spaces cs as va)
  kernel : ∀ as addr, .protect as ∈ cs → (∃ vma ∈ vm_areas A, vma.kernel ∧ InArea addr vma.area) →
    walk s.mem addr (levels A) as = walk s₀.mem addr (levels A).tail s₀.kpt

end Am.X86
