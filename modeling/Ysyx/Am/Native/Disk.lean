import Ysyx.Bytes.File

-- The disk of the native platform.

namespace Am.Native.Disk

abbrev BLKSZ : Int := 512

-- Signed overflow is undefined.
inductive Stop
  | assertion
  | undefined

structure State where
  disk_size : Int
  fp        : Option ByteFile

structure Config where
  present : Bool
  blksz   : Int
  blkcnt  : Int

structure Io where
  write  : Bool
  buf    : Nat → Byte
  blkno  : Int
  blkcnt : Int

-- Conversions and products of the machine.

def int (x : Int) : Int :=
  (BitVec.ofInt 32 x).toInt

def size_t (x : Int) : Nat :=
  (BitVec.ofInt 64 x).toNat

def mul (x y : Int) : Except Stop Int :=
  if -2 ^ 31 ≤ x * y ∧ x * y < 2 ^ 31 then .ok (x * y) else .error .undefined

-- `diskimg` is the file that is opened, if there is one.
def disk_init (diskimg : Option ByteFile) : State :=
  match diskimg with
  | none   => { disk_size := 0, fp := none }
  | some f => { disk_size := int ((f.size + 511) / 512), fp := f.fseek 0 }

def disk_config (s : State) : Config where
  present := s.fp.isSome
  blksz   := BLKSZ
  blkcnt  := s.disk_size

-- The results are the buffer and the state.
def disk_blkio (io : Io) (s : State) : Except Stop ((Nat → Byte) × State) := do
  match s.fp with
  | none => return (io.buf, s)
  | some fp =>
    let fp := fp.fseek (← mul io.blkno BLKSZ)
    let n := size_t (← mul io.blkcnt BLKSZ)
    if io.write then
      let (ret, fp) := fp.fwrite io.buf n
      if ¬ret = 1 then throw .assertion
      return (io.buf, { s with fp })
    else
      let (ret, buf, fp) := fp.fread io.buf n
      if ¬ret = 1 then throw .assertion
      return (buf, { s with fp })

end Am.Native.Disk
