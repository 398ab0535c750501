import Ysyx.Nemu.Gdb.Host
import Ysyx.Nemu.Gdb.Wire
import Ysyx.Nemu.Sdb

-- The other end of the connection: a machine that serves the commands over a link that damages packets, and what the
-- functions of the reference mean for the machine.

namespace Nemu.Gdb

inductive Command
  | write (addr : Word) (bytes : List Byte)
  | readRegs
  | writeRegs (bytes : List Byte)
  | step
  deriving DecidableEq

section Parsing

def unhex : List Byte → Option (List Byte)
  | []           => some []
  | [_]          => none
  | a :: b :: s => do
    let high ← digit? 16 a
    let low ← digit? 16 b
    return BitVec.ofNat 8 (16 * high + low) :: (← unhex s)

-- An address, a length and as many bytes.
def parseWrite (s : List Byte) : Option Command := do
  let (addr, s) ← number 16 s
  if s.head? ≠ some 0x2c then none
  let (len, s) ← number 16 s.tail
  if s.head? ≠ some 0x3a then none
  let bytes ← unhex s.tail
  if bytes.length = len then return .write (BitVec.ofNat 32 addr) bytes else none

def parse (s : List Byte) : Option Command :=
  match s with
  | 0x4d#8 :: 0x30#8 :: 0x78#8 :: s => parseWrite s
  | 0x4d#8 :: s                     => parseWrite s
  | [0x67#8]                        => some .readRegs
  | 0x47#8 :: s                     => (unhex s).map .writeRegs
  | s                               => if s = stepCommand then some .step else none

-- The first `n` words, from the low byte of each.
def bytesWords (n : Nat) (bytes : List Byte) : List Word :=
  (List.range n).map fun i => BitVec.ofBytes fun j => bytes.getD (4 * i + j) 0

end Parsing

-- A machine with its registers in the order of the protocol. `stopped` is the reply to a step.
structure Target (M : Type) where
  nrRegs  : Nat
  regs    : M → List Word
  setRegs : List Word → M → M
  store   : Word → Byte → M → M
  step    : M → M
  stopped : M → List Byte
  length_regs (m : M) : (regs m).length = nrRegs

namespace Target

variable {M : Type} (target : Target M)

def storeBytes (addr : Word) : List Byte → M → M
  | [], m      => m
  | b :: bs, m => storeBytes (addr + 1) bs (target.store addr b m)

-- A command that is not known gets an empty reply.
def answer (command : List Byte) : StateM M (List Byte) := fun m =>
  match parse command with
  | none                     => ([], m)
  | some (.write addr bytes) => ([0x4f, 0x4b], target.storeBytes addr bytes m)
  | some .readRegs           => (hexBytes (wordsBytes (target.regs m)), m)
  | some (.writeRegs bytes)  => ([0x4f, 0x4b], target.setRegs (bytesWords target.nrRegs bytes) m)
  | some .step               => (target.stopped (target.step m), target.step m)

end Target

-- What happens to a command: the answers to its damaged copies, the damaged copies of its reply and its reply.
structure Noise where
  nacks   : List Byte
  damaged : List (List Byte)
  encode  : List Byte → List Byte
  not_ack : 0x2b ∉ nacks
  isDamaged : ∀ p ∈ damaged, Damaged p
  carries   : ∀ data, Carries data (encode data)

namespace Noise

-- The input and the output of the client.
def input (noise : Noise) (reply : List Byte) : List Byte :=
  noise.nacks ++ 0x2b :: (noise.damaged.flatten ++ noise.encode reply)

def output (noise : Noise) (command : List Byte) : List Byte :=
  (List.replicate (noise.nacks.length + 1) (packet command)).flatten ++
    (List.replicate noise.damaged.length 0x2d ++ [0x2b])

end Noise

-- Commands are served one after the other, each of them once. The `i`-th has the `i`-th noise. A command is understood
-- if its packet carries it.
inductive Session {M : Type} (answer : List Byte → StateM M (List Byte)) (noise : Nat → Noise) :
    Nat → M → (input output : List Byte) → Nat → M → Prop
  | nil {i : Nat} {m : M} : Session answer noise i m [] [] i m
  | cons {i j : Nat} {m m' : M} {input output : List Byte} (command : List Byte) :
    Carries command (packet command) → Session answer noise (i + 1) (answer command m).2 input output j m' →
    Session answer noise i m ((noise i).input (answer command m).1 ++ input) ((noise i).output command ++ output) j m'

-- The functions of the reference.
inductive Call
  | memcpy (addr : Word) (buf : List Byte)
  | regcpy (memory : Nat → Byte) (dut : List Word) (direction : Direction)
  | exec (n : Nat)

-- What is in the registers of the caller afterwards.
def Call.run : Call → EStateM Fault Conn (List Word)
  | memcpy addr buf             => do difftestMemcpy addr buf .toRef; return []
  | regcpy memory dut direction => difftestRegcpy memory dut direction
  | exec n                      => do difftestExec n; return []

-- The call done on the machine itself.
def Target.call {M : Type} (target : Target M) : Call → StateM M (List Word)
  | .memcpy addr buf, m    => ([], target.storeBytes addr buf m)
  | .regcpy _ dut .toRef, m => (dut, target.setRegs (dut ++ (target.regs m).drop dut.length) m)
  | .regcpy _ dut .toDut, m => ((target.regs m).take dut.length, m)
  | .exec n, m             => ([], target.step^[n] m)

-- Buffers whose length fits into an `int`, and registers that the machine has.
def Target.Takes {M : Type} (target : Target M) : Call → Prop
  | .memcpy _ buf     => buf.length < 2 ^ 31
  | .regcpy _ dut _   => dut.length ≤ target.nrRegs
  | .exec _           => True

end Nemu.Gdb
