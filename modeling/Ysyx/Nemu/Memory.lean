import Ysyx.Bytes.LittleEndian

-- Physical memory and memory-mapped devices of NEMU, for configurations with 32-bit words.

namespace Nemu

-- The physical memory fits into the 32 bits of a `paddr_t`.
structure Config where
  MBASE    : Nat
  MSIZE    : Nat
  pos      : 0 < MSIZE
  fits     : MBASE + MSIZE ≤ 2 ^ 32
  DEVICE   : Bool
  DIFFTEST : Bool
  RT_CHECK : Bool

-- 128 MB at 0x80000000
theorem Config.pos_default : 0 < 0x8000000 := by decide
theorem Config.fits_default : 0x80000000 + 0x8000000 ≤ 2 ^ 32 := by decide

abbrev HostAddr := BitVec 64

-- `D` is what the devices keep outside of the memory of the host.
structure State (D : Type) where
  host             : Memory 64
  pc               : Word
  is_skip_ref      : Bool
  skip_dut_nr_inst : Nat
  device           : D

-- A failed assertion ends the program.
inductive Stop
  | pmemOutOfBound (addr left right pc : Word)
  | outOfBound (addr pc : Word)
  | mapOutOfBound (addr : Word) (name : String) (low high pc : Word)
  | assertion
  | device (message : String)
  deriving DecidableEq, Repr

def Stop.IsOutOfBound : Stop → Prop
  | pmemOutOfBound .. | outOfBound .. | mapOutOfBound .. => True
  | assertion | device _ => False

structure IOMap (D : Type) where
  name     : String
  low      : Word
  high     : Word
  space    : HostAddr
  callback : Option (Word → Nat → Bool → State D → Except String (State D))

-- What does not change while the guest runs.
structure Env (D : Type) extends Config where
  pmem : HostAddr
  maps : List (IOMap D)

abbrev M (D : Type) := EStateM Stop (State D)

variable {D : Type}

def host_read (cfg : Config) (addr : HostAddr) (len : Nat) : M D Word := do
  let host := (← get).host
  match len with
  | 1 => return (host addr).setWidth 32
  | 2 => return (host (addr + 1) ++ host addr).setWidth 32
  | 4 => return host.load32 addr
  | _ => if cfg.RT_CHECK then throw .assertion else return 0

def host_write (cfg : Config) (addr : HostAddr) (len : Nat) (data : Word) : M D Unit :=
  match len with
  | 1 => modify fun s => { s with host := s.host.store addr 1 data }
  | 2 => modify fun s => { s with host := s.host.store addr 2 data }
  | 4 => modify fun s => { s with host := s.host.store addr 4 data }
  | _ => if cfg.RT_CHECK then throw .assertion else return

namespace Env

variable (env : Env D)

def PMEM_LEFT : Word :=
  BitVec.ofNat 32 env.MBASE

def PMEM_RIGHT : Word :=
  BitVec.ofNat 32 (env.MBASE + env.MSIZE - 1)

def in_pmem (addr : Word) : Bool :=
  (addr - BitVec.ofNat 32 env.MBASE).toNat < env.MSIZE

def guest_to_host (paddr : Word) : HostAddr :=
  env.pmem + paddr.setWidth 64 - BitVec.ofNat 64 env.MBASE

def pmem_read (addr : Word) (len : Nat) : M D Word :=
  host_read env.toConfig (env.guest_to_host addr) len

def pmem_write (addr : Word) (len : Nat) (data : Word) : M D Unit :=
  host_write env.toConfig (env.guest_to_host addr) len data

def out_of_bound {α : Type} (addr : Word) : M D α := do
  throw <| .pmemOutOfBound addr env.PMEM_LEFT env.PMEM_RIGHT (← get).pc

end Env

def difftest_skip_ref (cfg : Config) : M D Unit :=
  if cfg.DIFFTEST then modify fun s => { s with is_skip_ref := true, skip_dut_nr_inst := 0 } else return

def map_inside (map : IOMap D) (addr : Word) : Bool :=
  addr ≥ map.low && addr ≤ map.high

-- The index of the map, or `-1`, stands for the map itself.
def find_mapid_by_addr (cfg : Config) (maps : List (IOMap D)) (addr : Word) : M D (Option (IOMap D)) := do
  match maps.find? (map_inside · addr) with
  | some map =>
    difftest_skip_ref cfg
    return some map
  | none => return none

def check_bound (map : Option (IOMap D)) (addr : Word) : M D (IOMap D) := do
  match map with
  | none => throw <| .outOfBound addr (← get).pc
  | some map =>
    if addr ≤ map.high && addr ≥ map.low then return map
    else throw <| .mapOutOfBound addr map.name map.low map.high (← get).pc

def invoke_callback (map : IOMap D) (offset : Word) (len : Nat) (is_write : Bool) : M D Unit := do
  match map.callback with
  | none => return
  | some c =>
    match c offset len is_write (← get) with
    | .ok s => set s
    | .error message => throw <| .device message

def map_read (cfg : Config) (addr : Word) (len : Nat) (map : Option (IOMap D)) : M D Word := do
  if ¬(len ≥ 1 ∧ len ≤ 8) then throw .assertion
  let map ← check_bound map addr
  let offset := addr - map.low
  invoke_callback map offset len false
  host_read cfg (map.space + offset.setWidth 64) len

def map_write (cfg : Config) (addr : Word) (len : Nat) (data : Word) (map : Option (IOMap D)) : M D Unit := do
  if ¬(len ≥ 1 ∧ len ≤ 8) then throw .assertion
  let map ← check_bound map addr
  let offset := addr - map.low
  host_write cfg (map.space + offset.setWidth 64) len data
  invoke_callback map offset len true

namespace Env

variable (env : Env D)

def fetch_mmio_map (addr : Word) : M D (Option (IOMap D)) :=
  find_mapid_by_addr env.toConfig env.maps addr

def mmio_read (addr : Word) (len : Nat) : M D Word := do
  map_read env.toConfig addr len (← env.fetch_mmio_map addr)

def mmio_write (addr : Word) (len : Nat) (data : Word) : M D Unit := do
  map_write env.toConfig addr len data (← env.fetch_mmio_map addr)

def paddr_read (addr : Word) (len : Nat) : M D Word := do
  if env.in_pmem addr then
    env.pmem_read addr len
  else if env.DEVICE then
    env.mmio_read addr len
  else
    env.out_of_bound addr

def paddr_write (addr : Word) (len : Nat) (data : Word) : M D Unit := do
  if env.in_pmem addr then
    env.pmem_write addr len data
  else if env.DEVICE then
    env.mmio_write addr len data
  else
    env.out_of_bound addr

end Env
end Nemu
