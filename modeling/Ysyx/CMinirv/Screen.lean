import Ysyx.CMinirv.Access
import Ysyx.Bytes.History

-- C_minirv_screen: words stored to the addresses of the screen go to a second array.

namespace CMinirv

-- `RAM_SIZE_BYTES`
abbrev ramSize : Nat := 1024 * 1024 * 1024 * 4

abbrev screenSize : Nat := 256 * 256

def InScreen (addr : Word) : Prop :=
  addr ≥ 0x20000000 ∧ addr < 0x20040000

instance : DecidablePred InScreen :=
  fun addr => inferInstanceAs <| Decidable (addr ≥ 0x20000000 ∧ addr < 0x20040000)

theorem inScreen_iff {addr : Word} : InScreen addr ↔ 0x20000000 ≤ addr.toNat ∧ addr.toNat < 0x20040000 :=
  .rfl

theorem toNat_sub_screen {addr : Word} (h : InScreen addr) :
    (addr - 0x20000000).toNat = addr.toNat - 0x20000000 := by
  have ⟨hl, _⟩ := inScreen_iff.mp h
  exact BitVec.toNat_sub_of_le hl

-- `vga_offset / 4`
def pixel (addr : Word) (h : InScreen addr) : Fin screenSize where
  val  := (addr - 0x20000000).toNat / 4
  isLt := by
    have ⟨_, hu⟩ := inScreen_iff.mp h
    rw [toNat_sub_screen h, screenSize]
    omega

theorem pixel_val {addr : Word} {h : InScreen addr} : (pixel addr h).val = (addr.toNat - 0x20000000) / 4 :=
  congrArg (· / 4) (toNat_sub_screen h)

structure Ram where
  memory    : Memory 32
  screen    : Fin screenSize → Word
  isRunning : Bool

def screenBus : Bus Ram where
  lw m addr   := element ramSize addr 4 (m.memory.load32 addr)
  lbu m addr  := element ramSize addr 1 (m.memory addr)
  sw m addr v :=
    if h : InScreen addr then
      .ok { m with screen := Function.update m.screen (pixel addr h) v }
    else
      element ramSize addr 4 { m with memory := m.memory.store addr 4 v }
  sb m addr b := element ramSize addr 1 { m with memory := m.memory.store addr 1 b }
  ebreak m _  := .ok { m with isRunning := false }

namespace Access

-- What the access loads from `m`.
def loaded (m : Memory 32) : Access → Option Word
  | .lw a  => some (m.load32 a)
  | .lbu a => some ((m a).setWidth 32)
  | .sw .. | .sb .. => none

-- All stores, wherever they end up.
def store? : Access → Option (Memory.Store 32)
  | .sw a v => some ⟨a, 4, v⟩
  | .sb a b => some ⟨a, 1, b.setWidth 32⟩
  | .lw _ | .lbu _ => none

-- The stores to `Memory`.
def memoryStore? (acc : Access) : Option (Memory.Store 32) :=
  match acc with
  | .sw a _ => if InScreen a then none else acc.store?
  | .sb .. | .lw _ | .lbu _ => acc.store?

-- The word that the access stores in `screen[k]`.
def pixelStore? (k : Fin screenSize) : Access → Option Word
  | .sw a v => if h : InScreen a then if pixel a h = k then some v else none else none
  | .sb .. | .lw _ | .lbu _ => none

-- The access either stays outside of the screen or stores one of its aligned words.
def Separate : Access → Prop
  | .lw a => ∀ x ∈ Memory.region a 4, ¬InScreen x
  | .lbu a | .sb a _ => ¬InScreen a
  | .sw a _ => (InScreen a ∧ a.toNat % 4 = 0) ∨ ∀ x ∈ Memory.region a 4, ¬InScreen x

end Access

def stores (h : List Access) : List (Memory.Store 32) :=
  h.filterMap Access.store?

def memoryStores (h : List Access) : List (Memory.Store 32) :=
  h.filterMap Access.memoryStore?

-- The word most recently stored in `screen[k]`.
def lastPixel (init : Word) (h : List Access) (k : Fin screenSize) : Word :=
  (h.findSome? (Access.pixelStore? k)).getD init

-- The address of `screen[k]`.
def pixelAddr (k : Fin screenSize) : Word :=
  0x20000000#32 + BitVec.ofNat 32 (4 * k)

-- The address space that programs are meant to see: the screen in place of the RAM behind it.
def Ram.view (m : Ram) : Memory 32 := fun x =>
  if h : InScreen x then (m.screen (pixel x h)).byte (x.toNat % 4) else m.memory x

-- The accesses of the calls of `inst_cycle` that lead from one state to another, the last one first.
inductive Run (rom : Memory 32) (s₀ : State Ram) : List Access → State Ram → Prop
  | start : Run rom s₀ [] s₀
  | step : Run rom s₀ h s → instCycle screenBus rom s = .ok s' →
    Run rom s₀ ((s.dataAccess rom).toList ++ h) s'

end CMinirv
