import Mathlib.Data.Nat.Digits.Defs
import Ysyx.Nemu.Gdb.Protocol

-- The commands to QEMU, `gdb-host.c`, and the functions of the reference, `diff-test.c`.

namespace Nemu.Gdb

section Formats

-- `%x`.
def hexText (n : Nat) : List Byte :=
  if n = 0 then [0x30] else (Nat.digits 16 n).reverse.map fun d => hexEncode (BitVec.ofNat 8 d)

def hexBytes (bytes : List Byte) : List Byte :=
  bytes.flatMap fun b : Byte => [hexEncode (b >>> 4), hexEncode (b &&& 0xf)]

-- The bytes of registers in memory.
def wordsBytes (words : List Word) : List Byte :=
  words.flatMap fun w => [w.byte 0, w.byte 1, w.byte 2, w.byte 3]

-- `M0x%x,%x:` and the bytes.
def writeCommand (dest : Word) (src : List Byte) : List Byte :=
  [0x4d, 0x30, 0x78] ++ hexText dest.toNat ++ [0x2c] ++ hexText src.length ++ [0x3a] ++ hexBytes src

def setregsCommand (r : List Word) : List Byte :=
  0x47 :: hexBytes (wordsBytes r)

-- `vCont;s:1`.
def stepCommand : List Byte :=
  [0x76, 0x43, 0x6f, 0x6e, 0x74, 0x3b, 0x73, 0x3a, 0x31]

-- `!strcmp(reply, "OK")`.
def isOk (reply : List Byte) : Bool :=
  reply.takeWhile (· ≠ 0) == [0x4f, 0x4b]

end Formats

-- A command and its reply.
def request (command : List Byte) : EStateM Fault Conn (List Byte) := do
  gdbSend command
  gdbRecv

def gdbMemcpyToQemuSmall (dest : Word) (src : List Byte) : EStateM Fault Conn Bool := do
  return isOk (← request <| writeCommand dest src)

-- `len` is the length of `src`, which fits into an `int`.
def memcpyFrom (ok : Bool) (dest : Word) (src : List Byte) : EStateM Fault Conn Bool := do
  let mtu := 1500
  if mtu < src.length then
    let ok' ← gdbMemcpyToQemuSmall dest (src.take mtu)
    memcpyFrom (ok && ok') (dest + BitVec.ofNat 32 mtu) (src.drop mtu)
  else
    return ok && (← gdbMemcpyToQemuSmall dest src)
termination_by src.length

def gdbMemcpyToQemu (dest : Word) (src : List Byte) : EStateM Fault Conn Bool :=
  memcpyFrom true dest src

-- `memory` is what the buffer of the reply holds behind its terminating zero. The buffer is large enough for the words.
def register (memory : Nat → Byte) (reply : List Byte) (i : Nat) : Word :=
  let p := (List.range 8).map fun j => (reply ++ [0]).getD (8 * i + j) (memory (8 * i + j))
  (gdbDecodeHexStr p).setWidth 32

def gdbGetregs (memory : Nat → Byte) : EStateM Fault Conn (List Word) := do
  let reply ← request [0x67]
  return (List.range 77).map (register memory reply)

def gdbSetregs (r : List Word) : EStateM Fault Conn Bool := do
  return isOk (← request <| setregsCommand r)

def gdbSi : EStateM Fault Conn Bool := do
  let _ ← request stepCommand
  return true

inductive Direction
  | toDut
  | toRef
  deriving DecidableEq

def difftestMemcpy (addr : Word) (buf : List Byte) (direction : Direction) : EStateM Fault Conn Unit := do
  if direction = .toRef then
    if ← gdbMemcpyToQemu addr buf then return else throw .assertion
  else throw .assertion

-- `dut` has `DIFFTEST_REG_SIZE` bytes.
def difftestRegcpy (memory : Nat → Byte) (dut : List Word) (direction : Direction) :
    EStateM Fault Conn (List Word) := do
  let r ← gdbGetregs memory
  match direction with
  | .toRef =>
    let _ ← gdbSetregs (dut ++ r.drop dut.length)
    return dut
  | .toDut => return r.take dut.length

def difftestExec : Nat → EStateM Fault Conn Unit
  | 0     => return
  | n + 1 => do
    let _ ← gdbSi
    difftestExec n

end Nemu.Gdb
