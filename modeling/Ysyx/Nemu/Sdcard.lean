import Ysyx.Nemu.Memory

-- The SD card: its registers are in the memory of the host, and its image is a file.

namespace Nemu.Sdcard

def MEMORY_SIZE : Nat := 16 * 1024 * 1024 * 1024
def READ_BL_LEN : Nat := 15
def BLOCK_LEN   : Nat := 1 <<< READ_BL_LEN
def NR_BLOCK    : Nat := MEMORY_SIZE / BLOCK_LEN
def C_SIZE_MULT : Nat := 7
def MULT        : Nat := 1 <<< (C_SIZE_MULT + 2)
def C_SIZE      : Nat := NR_BLOCK / MULT - 1

@[match_pattern] abbrev SDCMD  : Nat := 0
@[match_pattern] abbrev SDARG  : Nat := 1
@[match_pattern] abbrev SDRSP0 : Nat := 4
@[match_pattern] abbrev SDRSP1 : Nat := 5
@[match_pattern] abbrev SDRSP2 : Nat := 6
@[match_pattern] abbrev SDRSP3 : Nat := 7
@[match_pattern] abbrev SDDATA : Nat := 16

@[match_pattern] abbrev MMC_GO_IDLE_STATE        : Nat := 0
@[match_pattern] abbrev MMC_SEND_OP_COND         : Nat := 1
@[match_pattern] abbrev MMC_ALL_SEND_CID         : Nat := 2
@[match_pattern] abbrev MMC_SET_RELATIVE_ADDR    : Nat := 3
@[match_pattern] abbrev MMC_SLEEP_AWAKE          : Nat := 5
@[match_pattern] abbrev MMC_SELECT_CARD          : Nat := 7
@[match_pattern] abbrev MMC_SEND_EXT_CSD         : Nat := 8
@[match_pattern] abbrev MMC_SEND_CSD             : Nat := 9
@[match_pattern] abbrev MMC_STOP_TRANSMISSION    : Nat := 12
@[match_pattern] abbrev MMC_SEND_STATUS          : Nat := 13
@[match_pattern] abbrev MMC_READ_MULTIPLE_BLOCK  : Nat := 18
@[match_pattern] abbrev MMC_SET_BLOCK_COUNT      : Nat := 23
@[match_pattern] abbrev MMC_WRITE_MULTIPLE_BLOCK : Nat := 25
@[match_pattern] abbrev MMC_APP_CMD              : Nat := 55

-- `data` is meaningful below `size`.
structure FILE where
  size : Nat
  data : Nat → Byte
  pos  : Nat

namespace FILE

def word (f : FILE) (k : Nat) : Word :=
  BitVec.ofBytes fun i => f.data (k + i)

def put (data : Nat → Byte) (k : Nat) (v : Word) : Nat → Byte :=
  fun i => if k ≤ i ∧ i < k + 4 then v.byte (i - k) else data i

def fseek (f : FILE) (n : Nat) : FILE :=
  { f with pos := n }

-- How many bytes a read of four bytes finds.
def available (f : FILE) : Nat :=
  min 4 (f.size - f.pos)

-- A write behind the end fills the gap with zeros.
def fwrite (f : FILE) (v : Word) : FILE where
  size := max f.size (f.pos + 4)
  data := put (fun i => if f.size ≤ i ∧ i < f.pos then 0 else f.data i) f.pos v
  pos  := f.pos + 4

end FILE

-- The static variables.
structure Card where
  fp           : Option FILE
  blkcnt       : Word
  blk_addr     : BitVec 64
  addr         : Word
  write_cmd    : Bool
  read_ext_csd : Bool

variable (base : HostAddr)

-- `base[i]`
def reg (i : Nat) (s : State Card) : Word :=
  s.host.load32 (base + BitVec.ofNat 64 (4 * i))

def setReg (i : Nat) (v : Word) (s : State Card) : State Card :=
  { s with host := s.host.store (base + BitVec.ofNat 64 (4 * i)) 4 v }

def prepare_rw (is_write : Bool) (s : State Card) : State Card :=
  let blk_addr := (reg base SDARG s).setWidth 64
  { s with
    device.blk_addr  := blk_addr
    device.addr      := 0
    device.fp        := s.device.fp.map (·.fseek (blk_addr <<< 9).toNat)
    device.write_cmd := is_write }

def sdcard_handle_cmd (cmd : Nat) (s : State Card) : Except String (State Card) :=
  match cmd with
  | MMC_GO_IDLE_STATE => .ok s
  | MMC_SEND_OP_COND => .ok <| setReg base SDRSP0 0x80ff8000 s
  | MMC_ALL_SEND_CID => .ok <|
    setReg base SDRSP3 0x15000000 <| setReg base SDRSP2 0 <| setReg base SDRSP1 0 <| setReg base SDRSP0 1 s
  | 52 => .ok s
  | MMC_SEND_CSD => .ok <|
    setReg base SDRSP3 0x9026012a <|
    setReg base SDRSP2 (0x0f508000 ||| BitVec.ofNat 32 (C_SIZE >>> 2) ||| BitVec.ofNat 32 (READ_BL_LEN <<< 16)) <|
    setReg base SDRSP1 (0x124b97e3 ||| BitVec.ofNat 32 ((C_SIZE &&& 0x3) <<< 30)) <|
    setReg base SDRSP0 0x92404001 s
  | MMC_SEND_EXT_CSD => .ok { s with device.read_ext_csd := true, device.addr := 0 }
  | MMC_SLEEP_AWAKE => .ok s
  | MMC_APP_CMD => .ok s
  | MMC_SET_RELATIVE_ADDR => .ok s
  | MMC_SELECT_CARD => .ok s
  | MMC_SET_BLOCK_COUNT => .ok { s with device.blkcnt := reg base SDARG s &&& 0xffff }
  | MMC_READ_MULTIPLE_BLOCK => .ok <| prepare_rw base false s
  | MMC_WRITE_MULTIPLE_BLOCK => .ok <| prepare_rw base true s
  | MMC_SEND_STATUS => .ok <|
    setReg base SDRSP1 0 <| setReg base SDRSP2 0 <| setReg base SDRSP3 0 <| setReg base SDRSP0 0x900 s
  | MMC_STOP_TRANSMISSION => .ok s
  | cmd => .error s!"unhandled command = {cmd}"

-- `fread(&base[SDDATA], 4, 1, fp)`
def fread (f : FILE) (s : State Card) : State Card :=
  { s with
    host      := s.host.store (base + BitVec.ofNat 64 (4 * SDDATA)) f.available (f.word f.pos)
    device.fp := some { f with pos := f.pos + f.available } }

def ext_csd (addr : Word) : Word :=
  if addr = 192 then 2
  else if addr = 212 then BitVec.ofNat 32 (MEMORY_SIZE / 512)
  else 0

-- The case `SDDATA`, up to the change of `addr`.
def transfer (s : State Card) : State Card :=
  if s.device.read_ext_csd then
    let s := setReg base SDDATA (ext_csd s.device.addr) s
    if s.device.addr = 512 - 4 then { s with device.read_ext_csd := false } else s
  else
    match s.device.fp with
    | some f =>
      if !s.device.write_cmd then fread base f s
      else { s with device.fp := some (f.fwrite (reg base SDDATA s)) }
    | none => s

def sdcard_io_handler (offset : Word) (_len : Nat) (_is_write : Bool) (s : State Card) :
    Except String (State Card) :=
  match offset.toNat / 4 with
  | SDCMD => sdcard_handle_cmd base (reg base SDCMD s &&& 0x3f).toNat s
  | SDARG | SDRSP0 | SDRSP1 | SDRSP2 | SDRSP3 => .ok s
  | SDDATA =>
    let s := transfer base s
    .ok { s with device.addr := s.device.addr + 4 }
  | _ => .error s!"unhandle offset = {offset.toNat}"

-- The map that `init_sdcard` adds. `low` is `CONFIG_SDCARD_CTL_MMIO`.
def sdhci (low : Word) : IOMap Card where
  name     := "sdhci"
  low
  high     := low + 0x80 - 1
  space    := base
  callback := some (sdcard_io_handler base)

inductive Access
  | read (offset : Word) (len : Nat)
  | write (offset : Word) (len : Nat) (data : Word)
  deriving DecidableEq, Repr

namespace Access

-- What the bus does. A write has no result.
def run (cfg : Config) (low : Word) : Access → M Card Word
  | read offset len       => map_read cfg (low + offset) len (sdhci base low)
  | write offset len data => do
    map_write cfg (low + offset) len data (sdhci base low)
    return 0

-- The register that the callback is called for.
def idx : Access → Nat
  | read offset _ | write offset .. => offset.toNat / 4

-- The access writes bytes of register `i`.
def Writes (i : Nat) : Access → Prop
  | read ..            => False
  | write offset len _ => offset.toNat < 4 * i + 4 ∧ 4 * i < offset.toNat + len

-- The access transfers a word of a transfer in the given direction.
def isData (is_write : Bool) : Access → Bool
  | read offset len    => !is_write && offset == 4 * SDDATA && len == 4
  | write offset len _ => is_write && offset == 4 * SDDATA && len == 4

end Access
end Nemu.Sdcard
