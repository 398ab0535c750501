import Ysyx.Bytes.LittleEndian
import Ysyx.Monads.Except

-- The GDB remote protocol client by which the reference QEMU is reached, `protocol.c`.

open Fallible

namespace Nemu.Gdb

section Hex

-- In the "C" locale.
def isdigit (c : Byte) : Bool :=
  0x30 ≤ c && c ≤ 0x39

def tolower (c : Byte) : Byte :=
  if 0x41 ≤ c ∧ c ≤ 0x5a then c + 0x20 else c

def isxdigit (c : Byte) : Bool :=
  isdigit c || (0x61 ≤ tolower c && tolower c ≤ 0x66)

def hexNibble (hex : Byte) : Byte :=
  if isdigit hex then hex - 0x30 else tolower hex - 0x61 + 10

def hexEncode (digit : Byte) : Byte :=
  if 9 < digit then 0x61 + digit - 10 else 0x30 + digit

-- `UINT16_MAX` is no byte.
def gdbDecodeHex (msb lsb : Byte) : BitVec 16 :=
  if !isxdigit msb || !isxdigit lsb then 0xffff
  else 16 * (hexNibble msb).setWidth 16 + (hexNibble lsb).setWidth 16

-- `value` and `weight` are the variables of the loop. The string ends with a zero, which is no digit.
def decodeHexFrom (value weight : BitVec 64) : List Byte → BitVec 64
  | msb :: lsb :: bytes =>
    if isxdigit msb && isxdigit lsb then
      decodeHexFrom (value + weight * (gdbDecodeHex msb lsb).setWidth 64) (weight * (16 * 16)) bytes
    else value
  | _ => value

def gdbDecodeHexStr (bytes : List Byte) : BitVec 64 :=
  decodeHexFrom 0 1 bytes

-- `%02X`.
def upperHex (digit : Byte) : Byte :=
  if 9 < digit then 0x41 + digit - 10 else 0x30 + digit

end Hex

-- `errx` of a closed connection, an access outside of `reply`, and an assertion that fails.
inductive Fault
  | closed
  | overrun
  | assertion
  deriving DecidableEq, Repr

-- What is left to read until the connection is closed, and what has been written.
structure Conn where
  input  : List Byte
  output : List Byte
  ack    : Bool
  deriving DecidableEq

def Conn.write (bytes : List Byte) (conn : Conn) : Conn :=
  { conn with output := conn.output ++ bytes }

def checksum (command : List Byte) : Byte :=
  command.foldl (· + ·) 0

-- What `send_packet` writes.
def packet (command : List Byte) : List Byte :=
  let sum := checksum command
  0x24 :: command ++ [0x23, upperHex (sum >>> 4), upperHex (sum &&& 0xf)]

-- The loop of `gdb_send` over the answers. The end of the input is no acknowledgement, so that the packet is written
-- until the write fails.
def sendFrom (command : List Byte) : List Byte → Conn → EStateM.Result Fault Conn Unit
  | [], conn => .error .closed { conn with input := [] }
  | c :: rest, conn =>
    let conn := { conn with input := rest }
    if c = 0x2b then .ok .unit conn else sendFrom command rest (conn.write (packet command))

def gdbSend (command : List Byte) : EStateM Fault Conn Unit := fun conn =>
  let conn := conn.write (packet command)
  if conn.ack then sendFrom command conn.input conn else .ok .unit conn

-- The variables of `recv_packet`, with `reply` up to `i`.
structure Reply where
  reply  : List Byte
  size   : Nat
  sum    : Byte
  escape : Bool
  deriving DecidableEq

namespace Reply

def start : Reply where
  reply  := []
  size   := 4096
  sum    := 0
  escape := false

-- Stores to `reply` from `i` on. `i` advances.
def store (bytes : List Byte) (r : Reply) : Except Fault Reply :=
  if r.reply.length + bytes.length ≤ r.size then .ok { r with reply := r.reply ++ bytes } else .error .overrun

-- A new packet. The buffer stays.
def restart (r : Reply) : Reply :=
  { r with reply := [], sum := 0, escape := false }

def countable (c₂ : Byte) : Bool :=
  !(c₂ < 29 || 126 < c₂ || c₂ == 0x24 || c₂ == 0x23)

-- The last character again.
def more (last c₂ : Byte) (r : Reply) : Except Fault Reply :=
  let count := (c₂ - 29).toNat
  let r := if r.reply.length + count > r.size then { r with size := 2 * r.size } else r
  { r with sum := r.sum + c₂ }.store (List.replicate count last)

def add (c : Byte) (r : Reply) : Except Fault Reply :=
  let c := if r.escape then c ^^^ 0x20 else c
  let r := { r with escape := false }
  let r := if r.reply.length = r.size then { r with size := 2 * r.size } else r
  r.store [c]

-- The terminating zero.
def terminate (r : Reply) : Except Fault (List Byte) :=
  let r := if r.reply.length = r.size then { r with size := r.size + 1 } else r
  if r.reply.length < r.size then .ok r.reply else .error .overrun

end Reply

-- A reply, whether its checksum is right, and the input after it.
structure Received where
  reply : List Byte
  sumOk : Bool
  input : List Byte
  deriving DecidableEq

-- The checksum of a packet. At the end of the input `fgetc` gives `EOF`, of which the low byte is taken.
def finish (sum : Byte) (r : Reply) (input : List Byte) : Except Fault Received := do
  let msb := input.headD 0xff
  let lsb := input.tail.headD 0xff
  let reply ← r.terminate
  return ⟨reply, sum.setWidth 16 == gdbDecodeHex msb lsb, input.tail.tail⟩

-- The loop over the characters of a packet.
def recvFrom : Reply → List Byte → Except Fault Received
  | _, [] => .error .closed
  | r, c :: input =>
    let r := { r with sum := r.sum + c }
    if c = 0x24 then recvFrom r.restart input
    else if c = 0x23 then finish (r.sum - c) r input
    else if c = 0x7d then recvFrom { r with escape := true } input
    else if c = 0x2a then
      match r.reply.getLast?, input with
      | some last, c₂ :: input' =>
        -- An invalid count is put back.
        if Reply.countable c₂ then do recvFrom (← r.more last c₂) input'
        else do recvFrom (← r.add c) (c₂ :: input')
      | _, input => do recvFrom (← r.add c) input
    else do recvFrom (← r.add c) input

-- The characters before the first packet are skipped.
def recvPacket (input : List Byte) : Except Fault Received :=
  recvFrom .start (input.dropWhile (· ≠ 0x24)).tail

section Length

variable {r : Reply} {sum : Byte} {input : List Byte} {v : Received}

theorem finish_input (h : finish sum r input = .ok v) : v.input = input.tail.tail := by
  have ⟨_, _, h⟩ := ok_of_bind h
  cases h
  rfl

theorem recvFrom_length (h : recvFrom r input = .ok v) : v.input.length < input.length := by
  fun_induction recvFrom r input
  case case1 => cases h
  case case2 hi => exact (hi h).trans (Nat.lt_succ_self _)
  case case3 =>
    rw [finish_input h, List.length_tail, List.length_tail]
    simp only [List.length_cons]
    omega
  case case4 hi => exact (hi h).trans (Nat.lt_succ_self _)
  case case5 hi =>
    have ⟨_, _, h⟩ := ok_of_bind h
    exact (hi _ h).trans <| (Nat.lt_succ_self _).trans (Nat.lt_succ_self _)
  case case6 hi =>
    have ⟨_, _, h⟩ := ok_of_bind h
    exact (hi _ h).trans (Nat.lt_succ_self _)
  case case7 hi =>
    have ⟨_, _, h⟩ := ok_of_bind h
    exact (hi _ h).trans (Nat.lt_succ_self _)
  case case8 hi =>
    have ⟨_, _, h⟩ := ok_of_bind h
    exact (hi _ h).trans (Nat.lt_succ_self _)

theorem recvPacket_length (h : recvPacket input = .ok v) : v.input.length < input.length := by
  have ht := List.length_tail (l := input.dropWhile (· ≠ 0x24))
  have hd := (List.dropWhile_sublist (l := input) (· ≠ 0x24)).length_le
  have := recvFrom_length h
  omega

end Length

-- The loop of `gdb_recv`. A packet with a wrong checksum is asked for again.
def recvLoop (conn : Conn) : EStateM.Result Fault Conn (List Byte) :=
  match h : recvPacket conn.input with
  | .error e => .error e conn
  | .ok received =>
    have := recvPacket_length h
    let conn' := { conn with input := received.input }
    if conn.ack then
      let conn' := conn'.write [if received.sumOk then 0x2b else 0x2d]
      if received.sumOk then .ok received.reply conn' else recvLoop conn'
    else .ok received.reply conn'
termination_by conn.input.length

def gdbRecv : EStateM Fault Conn (List Byte) :=
  recvLoop

end Nemu.Gdb
