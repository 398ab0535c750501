import Ysyx.CMinirv.Access

-- `main` of C_minirv: loading the image and the loop around `inst_cycle`.

namespace CMinirv

-- A binary that `main` accepts.
structure Image where
  bytes : List Byte
  bytes_le : bytes.length ≤ memSize

def ebreakInst : Word := 0x00100073

-- The switch over `argv[1][15]`.
def haltAddr : Char → Word
  | 'm' => 0x1218
  | 's' => 0x224
  | 'v' => 0xdb0
  | _   => 0x1218

namespace Image

def memory (img : Image) : Memory 32 :=
  fun a => img.bytes.getD a.toNat 0

def rom (img : Image) (c : Char) : Memory 32 :=
  img.memory.store (haltAddr c) 4 ebreakInst

def boot (img : Image) : State (Memory 32) where
  register := fun _ => 0
  pc       := 0
  memory   := img.memory

end Image

-- One iteration of `while (1)`.
def iteration (rom : Memory 32) (s : State (Memory 32)) : Except Stop (State (Memory 32)) := do
  let s ← instCycle bus rom s
  if s.pc.toNat > memSize then .error .pcOutOfBounds else .ok s

-- The states in which an iteration of the loop begins.
inductive Reachable (img : Image) (c : Char) : State (Memory 32) → Prop
  | boot : Reachable img c img.boot
  | step : Reachable img c s → iteration (img.rom c) s = .ok s' → Reachable img c s'

end CMinirv
