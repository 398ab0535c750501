import Mathlib.Logic.Function.Basic
import Ysyx.Lists.Linked

-- The address spaces of the native platform.

namespace Am.Native

open Function (update)
open Linked (Path)

abbrev Ptr := BitVec 64

def NULL : Ptr := 0#64

structure Area where
  start : Ptr
  «end» : Ptr

def IN_RANGE (ptr : Ptr) (area : Area) : Prop :=
  area.start ≤ ptr ∧ ptr < area.end

instance {ptr : Ptr} {area : Area} : Decidable (IN_RANGE ptr area) :=
  inferInstanceAs (Decidable (_ ∧ _))

def USER_SPACE : Area := ⟨0x40000000#64, 0xc0000000#64⟩

-- `snprintf(buf, 32, "%x", va)`: the argument of `%x` is the lower half of the pointer.
def snprintf (va : Ptr) : String :=
  String.ofList (Nat.toDigits 16 (va.setWidth 32).toNat)

structure PageMap where
  va : Ptr
  pa : Ptr
  next : Ptr
  prot : BitVec 32
  is_mapped : Bool
  key : String

-- `hsearch_r` is a map from the keys to the data of their entries.
structure VMHead where
  head : Ptr
  hash : String → Option Ptr
  nr_page : BitVec 32

structure AddrSpace where
  pgsize : Nat
  area : Area
  ptr : Ptr

-- A page that the host has mapped, by its offset in `pmem_fd`.
structure Mapping where
  prot : BitVec 32
  offset : BitVec 64

-- `pages` and `heads` hold the pages of `pgalloc` that are nodes and heads, `vm_head` is the one of `thiscpu`.
@[ext]
structure State where
  pages : Ptr → Option PageMap
  heads : Ptr → Option VMHead
  vm_head : Ptr
  host : Ptr → Option Mapping
  vme_enable : Bool

-- The state behind `init_platform`.
def State.init : State where
  pages _ := none
  heads _ := none
  vm_head := NULL
  host _ := none
  vme_enable := false

def MMAP_READ : BitVec 32 := 1
def MMAP_WRITE : BitVec 32 := 2

def PROT_NONE : BitVec 32 := 0
def PROT_READ : BitVec 32 := 1
def PROT_WRITE : BitVec 32 := 2
def PROT_EXEC : BitVec 32 := 4

def PMEM_START : Ptr := 0x1000000#64

def mmap_prot (prot : BitVec 32) : BitVec 32 :=
  (if prot &&& MMAP_READ ≠ 0 then PROT_NONE ||| (PROT_READ ||| PROT_EXEC) else PROT_NONE) |||
  (if prot &&& MMAP_WRITE ≠ 0 then PROT_WRITE else 0)

def mapping (pa : Ptr) (prot : BitVec 32) : Mapping where
  prot := mmap_prot prot
  offset := pa - PMEM_START

namespace State

def am_pmem_map (s : State) (va pa : Ptr) (prot : BitVec 32) : State :=
  { s with host := update s.host va (some (mapping pa prot)) }

def am_pmem_unmap (s : State) (va : Ptr) : State :=
  { s with host := update s.host va none }

def setPage (s : State) (p : Ptr) (pp : PageMap) : State :=
  { s with pages := update s.pages p (some pp) }

def setHead (s : State) (h : Ptr) (v : VMHead) : State :=
  { s with heads := update s.heads h (some v) }

-- The link of a node.
def next (s : State) (p : Ptr) : Option Ptr :=
  (s.pages p).map PageMap.next

-- The nodes of a list of pages.
def nodes (s : State) (l : List Ptr) : List PageMap :=
  l.filterMap s.pages

-- A page that `pgalloc` may return.
structure Fresh (s : State) (p : Ptr) : Prop where
  null : p ≠ NULL
  page : s.pages p = none
  head : s.heads p = none

-- `map` does not find a node for `va`.
def Allocates (s : State) (h va : Ptr) : Prop :=
  ∃ v, s.heads h = some v ∧ v.hash (snprintf va) = none

end State

def vme_init (s : State) : State :=
  { s with vme_enable := true }

-- `h` is the page that `pgalloc` returns.
def protect (am_pgsize : Nat) (h : Ptr) (s : State) : AddrSpace × State :=
  ({ pgsize := am_pgsize, area := USER_SPACE, ptr := h },
    s.setHead h { head := NULL, hash := fun _ => none, nr_page := 0 })

-- A loop that does not come to `NULL` does not come to an end.
def list_foreach (body : Ptr → State → Option State) : Nat → Ptr → State → Option State
  | 0, _, _ => none
  | fuel + 1, p, s =>
    if p = NULL then
      some s
    else do
      let s ← body p s
      list_foreach body fuel (← s.next p) s

def unmapPage (p : Ptr) (s : State) : Option State := do
  let pp ← s.pages p
  if pp.is_mapped then
    some ((s.am_pmem_unmap pp.va).setPage p { pp with is_mapped := false })
  else
    some s

def mapPage (p : Ptr) (s : State) : Option State := do
  let pp ← s.pages p
  if IN_RANGE pp.va USER_SPACE then
    some ((s.am_pmem_map pp.va pp.pa pp.prot).setPage p { pp with is_mapped := true })
  else
    none

-- `munmap` all mappings.
def unmapAll (fuel : Nat) (now_head : Ptr) (s : State) : Option State := do
  if now_head ≠ NULL then
    let v ← s.heads now_head
    list_foreach unmapPage fuel v.head s
  else
    some s

-- `mmap` all mappings.
def mapAll (fuel : Nat) (head : Ptr) (s : State) : Option State := do
  if head ≠ NULL then
    let v ← s.heads head
    list_foreach mapPage fuel v.head s
  else
    some s

-- `head` is the head of the context.
def am_switch (fuel : Nat) (head : Ptr) (s : State) : Option State := do
  if !s.vme_enable then
    some s
  else if head = s.vm_head then
    some { s with vm_head := head }
  else
    let s ← unmapAll fuel s.vm_head s
    let s ← mapAll fuel head s
    some { s with vm_head := head }

-- The node for `va`: the one that is found, or the page that `pgalloc` returns.
def node (va fresh : Ptr) (v : VMHead) (s : State) : Option (Ptr × PageMap × VMHead) :=
  match v.hash (snprintf va) with
  | none =>
    let key := snprintf va
    let pp : PageMap := { va := 0, pa := 0, next := NULL, prot := 0, is_mapped := false, key := key }
    some (fresh, pp, { v with hash := update v.hash key (some fresh), nr_page := v.nr_page + 1 })
  | some p => (s.pages p).map fun pp => (p, pp, v)

def map (am_pgsize : Nat) (as : AddrSpace) (va pa : Ptr) (prot : BitVec 32) (fresh : Ptr) (s : State) :
    Option State := do
  if IN_RANGE va USER_SPACE ∧ va.toNat % am_pgsize = 0 ∧ pa.toNat % am_pgsize = 0 ∧ as.ptr ≠ NULL then
    let vm_head ← s.heads as.ptr
    let (p, pp, vm_head) ← node va fresh vm_head s
    let pp := { pp with va := va, pa := pa, prot := prot, is_mapped := false, next := vm_head.head }
    let s := (s.setPage p pp).setHead as.ptr { vm_head with head := p }
    if as.ptr = s.vm_head then
      some ((s.am_pmem_map pp.va pp.pa pp.prot).setPage p { pp with is_mapped := true })
    else
      some s
  else
    none

-- The calls, with the pages that `pgalloc` returns.
inductive Call
  | protect (h : Ptr)
  | map (as : AddrSpace) (va pa : Ptr) (prot : BitVec 32) (fresh : Ptr)
  | switch (head : Ptr)

inductive Step (am_pgsize : Nat) (s : State) : Call → State → Prop
  | protect {h : Ptr} : s.Fresh h → Step am_pgsize s (.protect h) (protect am_pgsize h s).2
  | map {as : AddrSpace} {va pa : Ptr} {prot : BitVec 32} {fresh : Ptr} {s' : State} :
    (s.Allocates as.ptr va → s.Fresh fresh) → map am_pgsize as va pa prot fresh s = some s' →
    Step am_pgsize s (.map as va pa prot fresh) s'
  | switch {fuel : Nat} {head : Ptr} {s' : State} : am_switch fuel head s = some s' →
    Step am_pgsize s (.switch head) s'

-- The calls behind `vme_init`, the latest one first.
inductive Run (am_pgsize : Nat) : List Call → State → Prop
  | nil : Run am_pgsize [] (vme_init State.init)
  | cons {c : Call} {cs : List Call} {s s' : State} : Run am_pgsize cs s → Step am_pgsize s c s' →
    Run am_pgsize (c :: cs) s'

-- What address spaces are for: each one is a map from the pages to their `pa` and `prot`, and the calls that
-- change one are those of `map`.
abbrev Spaces := Ptr → Ptr → Option (Ptr × BitVec 32)

def Call.apply (sp : Spaces) : Call → Spaces
  | map as va pa prot _ => update sp as.ptr (update (sp as.ptr) va (some (pa, prot)))
  | _ => sp

def spaces : List Call → Spaces
  | [] => fun _ _ => none
  | c :: cs => c.apply (spaces cs)

-- The space and the page of a call of `map`.
def Call.page? : Call → Option (Ptr × Ptr)
  | map as va .. => some (as.ptr, va)
  | _ => none

-- No page is mapped twice in a space.
def Once (cs : List Call) : Prop :=
  (cs.filterMap Call.page?).Nodup

-- The list of a space ends, and has one node for each page that has been mapped.
def Represents (s : State) (v : VMHead) (space : Ptr → Option (Ptr × BitVec 32)) : Prop :=
  ∃ l, Path s.next v.head l NULL ∧ ((s.nodes l).map PageMap.va).Nodup ∧
    ∀ va pa prot, space va = some (pa, prot) ↔ ∃ pp ∈ s.nodes l, pp.va = va ∧ pp.pa = pa ∧ pp.prot = prot

-- The host has mapped the pages of a space.
def Shows (s : State) (space : Ptr → Option (Ptr × BitVec 32)) : Prop :=
  ∀ va, s.host va = (space va).map fun x => mapping x.1 x.2

structure Correct (cs : List Call) (s : State) : Prop where
  list : ∀ h v, s.heads h = some v → Represents s v (spaces cs h)
  switch : ∀ h, h = NULL ∨ s.heads h ≠ none →
    ∃ fuel s', am_switch fuel h s = some s' ∧ Shows s' (spaces cs h)

end Am.Native
