import Mathlib.Logic.Function.Basic
import Ysyx.Elf.Basic
import Ysyx.Monads.Fuel

-- The boot loader of the x86 machines.

namespace Am.Boot

open BitVec (ofNat ofBytes)
open Elf (Format elf32 elf64 e_machine EM_X86_64 number)

abbrev SECTSIZE : Nat := 512
abbrev ARGSIZE : Nat := 1024
abbrev BOOTREC_ADDR : Word := 0x7000
abbrev MAINARG_ADDR : Word := 0x10000

-- The bytes of each sector on the two drives.
abbrev Disk := Bool → BitVec 28 → Nat → Byte

-- The ports take a sector number of 28 bits. The next bit is that of the second drive.
def Disk.sector (disk : Disk) (sect : Word) : Nat → Byte :=
  disk (sect.getLsbD 28) (sect.extractLsb' 0 28)

-- The structure at an address.
def bytesAt (mem : Memory 32) (p : Word) : Nat → Byte :=
  fun k => mem (p + ofNat 32 k)

-- The drive is expected to become ready.
def read_disk (disk : Disk) (buf sect : Word) (mem : Memory 32) : Memory 32 :=
  (List.range (SECTSIZE / 4)).foldl (fun mem i =>
    let inl : Word := ofBytes fun k => disk.sector sect (4 * i + k)
    mem.store (buf + ofNat 32 (4 * i)) 4 inl) mem

-- The variables of the loops.

structure Copy where
  cur  : Word
  sect : Word
  mem  : Memory 32

structure Clear where
  i   : Word
  bss : Word
  mem : Memory 32

structure Load where
  i   : Nat
  ph  : Word
  mem : Memory 32

def copy_from_disk (disk : Disk) (buf nbytes disk_offset : Word) (mem : Memory 32) : Fuel (Memory 32) := do
  let cur := buf &&& ~~~ofNat 32 (SECTSIZE - 1)
  let ed := buf + nbytes
  let sect := disk_offset.sdiv (ofNat 32 SECTSIZE) + ofNat 32 (ARGSIZE / SECTSIZE) + 1
  let s ← Fuel.loop (fun s : Copy => s.cur < ed)
    (fun s => return {
      cur  := s.cur + ofNat 32 SECTSIZE
      sect := s.sect + 1
      mem  := read_disk disk s.cur s.sect s.mem })
    { cur, sect, mem }
  return s.mem

def load_program (disk : Disk) (filesz memsz paddr offset : Word) (mem : Memory 32) : Fuel (Memory 32) := do
  let mem ← copy_from_disk disk paddr filesz offset mem
  let s ← Fuel.loop (fun s : Clear => s.i ≠ memsz)
    (fun s => return { i := s.i + 1, bss := s.bss + 1, mem := Function.update s.mem s.bss 0 })
    { i := filesz, bss := paddr + filesz, mem }
  return s.mem

-- The headers are read from the memory as they are needed.
def load_next (F : Format) (disk : Disk) (s : Load) : Fuel Load := do
  let ph := F.header (bytesAt s.mem s.ph)
  let mem ← load_program disk (ofNat 32 ph.filesz) (ofNat 32 ph.memsz) (ofNat 32 ph.paddr) (ofNat 32 ph.offset) s.mem
  return { i := s.i + 1, ph := s.ph + ofNat 32 F.phentsize, mem }

def more (F : Format) (elf : Word) (s : Load) : Bool :=
  s.i < F.e_phnum.get (bytesAt s.mem elf)

def entry (F : Format) (elf : Word) (mem : Memory 32) : Load where
  i   := 0
  ph  := elf + ofNat 32 (F.e_phoff.get (bytesAt mem elf))
  mem := mem

def load_elf (F : Format) (disk : Disk) (elf : Word) (mem : Memory 32) : Fuel (Memory 32) := do
  let s ← Fuel.loop (more F elf) (load_next F disk) (entry F elf mem)
  return s.mem

def load_elf64 : Disk → Word → Memory 32 → Fuel (Memory 32) :=
  load_elf elf64

def load_elf32 : Disk → Word → Memory 32 → Fuel (Memory 32) :=
  load_elf elf32

def is_ap (mem : Memory 32) : Nat :=
  number (bytesAt mem (BOOTREC_ADDR + 4)) 4

abbrev u : Word := 0x8000

-- What happens before the entry of the kernel is called.
def load_kernel (disk : Disk) (mem : Memory 32) : Fuel (Memory 32) := do
  if is_ap mem = 0 then
    let mem ← copy_from_disk disk MAINARG_ADDR 1024 (-1024) mem
    let mem ← copy_from_disk disk u 4096 0 mem
    if e_machine.get (bytesAt mem u) = EM_X86_64 then
      load_elf64 disk u mem
    else
      load_elf32 disk u mem
  else
    return mem

end Am.Boot
