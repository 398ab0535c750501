import Ysyx.Nemu.Memory

-- The registration of devices in the two address spaces of NEMU.

namespace Nemu

def NR_MAP : Nat := 16
def PORT_IO_SPACE_MAX : Word := 65535

abbrev Callback (D : Type) := Word → Nat → Bool → State D → Except String (State D)

-- `maps` are the regions of the memory-mapped devices, `pio_maps` those of the ports.
structure Registry (D : Type) extends Env D where
  pio_maps : List (IOMap D)

-- A region is reported as overlapped, or an assertion fails.
inductive Refused
  | overlap (name₁ : String) (l₁ r₁ : Word) (name₂ : String) (l₂ r₂ : Word)
  | assertion

variable {D : Type}

namespace Registry

def add_mmio_map (name : String) (addr : Word) (space : HostAddr) (len : Word) (callback : Option (Callback D))
    (r : Registry D) : Except Refused (Registry D) :=
  if r.maps.length < NR_MAP then
    let left := addr
    let right := addr + len - 1
    if r.in_pmem left || r.in_pmem right then
      .error <| .overlap name left right "pmem" r.PMEM_LEFT r.PMEM_RIGHT
    else match r.maps.find? fun map => left ≤ map.high && right ≥ map.low with
      | some map => .error <| .overlap name left right map.name map.low map.high
      | none => .ok { r with maps := r.maps ++ [{ name, low := addr, high := addr + len - 1, space, callback }] }
  else
    .error .assertion

-- An `ioaddr_t` has 16 bits.
def add_pio_map (name : String) (addr : BitVec 16) (space : HostAddr) (len : Word) (callback : Option (Callback D))
    (r : Registry D) : Except Refused (Registry D) :=
  if r.pio_maps.length < NR_MAP then
    if addr.setWidth 32 + len ≤ PORT_IO_SPACE_MAX then
      .ok { r with pio_maps := r.pio_maps ++
        [{ name, low := addr.setWidth 32, high := addr.setWidth 32 + len - 1, space, callback }] }
    else
      .error .assertion
  else
    .error .assertion

end Registry

-- A call of `add_mmio_map` or of `add_pio_map`.
inductive Call (D : Type)
  | mmio (name : String) (addr : Word) (space : HostAddr) (len : Word) (callback : Option (Callback D))
  | pio (name : String) (addr : BitVec 16) (space : HostAddr) (len : Word) (callback : Option (Callback D))

namespace Call

def isPort : Call D → Bool
  | mmio .. => false
  | pio ..  => true

def addr : Call D → Word
  | mmio _ addr _ _ _ => addr
  | pio _ addr _ _ _  => addr.setWidth 32

def len : Call D → Word
  | mmio _ _ _ len _ | pio _ _ _ len _ => len

def perform : Call D → Registry D → Except Refused (Registry D)
  | mmio name addr space len callback => Registry.add_mmio_map name addr space len callback
  | pio name addr space len callback  => Registry.add_pio_map name addr space len callback

end Call

-- Before the devices are initialised.
def Env.boot (env : Env D) : Registry D :=
  { env with maps := [], pio_maps := [] }

def Registry.register (r : Registry D) (calls : List (Call D)) : Except Refused (Registry D) :=
  calls.foldlM (fun r c => c.perform r) r

namespace Registry

def Disjoint (map map' : IOMap D) : Prop :=
  ∀ addr, ¬(map_inside map addr = true ∧ map_inside map' addr = true)

-- The regions that `calls` have registered in `r` are a partition of each of the address spaces.
structure Partition (env : Env D) (calls : List (Call D)) (r : Registry D) : Prop where
  ordered : ∀ map ∈ r.maps ++ r.pio_maps, map.low ≤ map.high
  mmio    : r.maps.Pairwise Disjoint
  pmem    : ∀ map ∈ r.maps, ∀ addr, map_inside map addr = true → r.in_pmem addr = false
  pio     : r.pio_maps.Pairwise Disjoint
  served  : ∀ addr, (r.maps.filter (map_inside · addr)).length + (r.in_pmem addr).toNat ≤ 1 ∧
    (r.pio_maps.filter (map_inside · addr)).length ≤ 1
  order   : ∀ calls', calls'.Perm calls → ∃ r', env.boot.register calls' = .ok r' ∧ ∀ addr,
    r'.maps.find? (map_inside · addr) = r.maps.find? (map_inside · addr) ∧
    r'.pio_maps.find? (map_inside · addr) = r.pio_maps.find? (map_inside · addr)

-- No call reaches behind the last address, none for the memory bus encloses the physical memory, and no two for
-- ports share a port.
structure Sound (env : Env D) (calls : List (Call D)) : Prop where
  noWrap : ∀ c ∈ calls, c.addr.toNat + c.len.toNat ≤ 2 ^ 32
  pmem   : ∀ c ∈ calls, c.isPort = false →
    ¬(c.addr.toNat < env.MBASE ∧ env.MBASE + env.MSIZE < c.addr.toNat + c.len.toNat)
  ports  : calls.Pairwise fun c c' => c.isPort = true → c'.isPort = true →
    c.addr.toNat + c.len.toNat ≤ c'.addr.toNat ∨ c'.addr.toNat + c'.len.toNat ≤ c.addr.toNat

end Registry
end Nemu
