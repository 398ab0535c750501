import Ysyx.Am.X86.Basic

-- The first tables of the kernel: those of `start64.S`, and those that `vme_init` makes.

namespace Am.X86

open Function (update)

variable {A : Arch}

def PML4_ADDR : Word .x86_64 := BitVec.ofNat _ 0x1000
def PDPT_ADDR : Word .x86_64 := BitVec.ofNat _ 0x2000

def pml4e : Word .x86_64 :=
  PDPT_ADDR ||| PTE_P ||| PTE_W

def pdpte (i : Nat) : Word .x86_64 :=
  BitVec.ofNat Arch.x86_64.width (i <<< 30) ||| PTE_P ||| PTE_W ||| PTE_PS

def lower : Word .x86_64 :=
  BitVec.ofNat _ 0xffffffff

-- The lower half of the first entry is compared and written. It is there when another processor starts.
def start64 (s : State .x86_64) : State .x86_64 :=
  let entry := s.mem PML4_ADDR 0
  if entry &&& lower = pml4e then
    s
  else
    let s := s.store PML4_ADDR 0 (entry &&& ~~~lower ||| pml4e)
    { s with mem := update s.mem PDPT_ADDR fun i => if i < 512 then pdpte i else s.mem PDPT_ADDR i }

-- The loop over the addresses of an area. It is given more rounds than there are pages.
def fillArea (as stop : Word A) : Nat → Word A → Exec A Unit
  | 0, _ => bug
  | fuel + 1, cur =>
    if cur = stop then
      pure ()
    else do
      let (pt, index) ← ptwalk cur PTE_W (levels A) as
      modify fun s => s.store pt index (cur ||| PTE_P ||| PTE_W)
      fillArea as stop fuel (cur + BitVec.ofNat _ (mmu A).pgsize)

def fillAreas (as : Word A) : List (VmArea A) → Exec A Unit
  | [] => pure ()
  | vma :: vmas => do
    if vma.kernel then
      fillArea as vma.area.end (2 ^ A.width / (mmu A).pgsize + 1) vma.area.start
    fillAreas as vmas

-- `as` is the address of the local variable.
def vme_init (as : Word A) : Exec A Unit :=
  match A with
  | .x86_64 => modify fun s => { s with kpt := PML4_ADDR }
  | .x86 => do
    modify fun s => s.store as 0 0
    fillAreas as (vm_areas .x86)
    modify fun s => { s with kpt := baseof (s.mem as 0) }

-- The states behind `vme_init`. Its variable does not lie in a page of `pgalloc`.
inductive Booted : {A : Arch} → State A → Prop
  | x86 {as : Word .x86} {s s₀ : State .x86} : as ∉ s.pool → s.pool.Nodup → (∀ base ∈ s.pool, baseof base = base) →
    vme_init as s = .ok () s₀ → Booted s₀
  | x86_64 {as : Word .x86_64} {s s₀ : State .x86_64} : vme_init as (start64 s) = .ok () s₀ → Booted s₀

end Am.X86
