import Ysyx.Nemu.Memory

-- The execution of riscv32 guest programs: instructions, differential testing, device input and `cpu_exec`.

namespace Nemu

inductive RunState
  | NEMU_RUNNING | NEMU_STOP | NEMU_END | NEMU_ABORT | NEMU_QUIT
  deriving DecidableEq, Repr

export RunState (NEMU_RUNNING NEMU_STOP NEMU_END NEMU_ABORT NEMU_QUIT)

structure NEMUState where
  state    : RunState
  halt_pc  : Word
  halt_ret : BitVec 32
  deriving DecidableEq, Repr

structure CPU_state where
  gpr : BitVec 5 → Word
  pc  : Word

-- What `SDL_PollEvent` delivers.
inductive Event
  | quit
  | key (scancode : Byte) (is_keydown : Bool)
  | other
  deriving DecidableEq

-- `R` is the state of the reference, and `events` is what the coming calls of `device_update` find in the queue.
structure Machine (D R : Type) extends State D where
  gpr             : BitVec 5 → Word
  nemu_state      : NEMUState
  g_nr_guest_inst : BitVec 64
  ref             : R
  events          : List (List Event)

-- The program stops in an access to memory, or because it can not catch up with the reference.
inductive Fault
  | stop (e : Stop)
  | catchUp (ref_pc pc : Word)

-- The keyboard device and the functions that the reference exports.
structure System (D R : Type) extends Env D where
  HAS_KEYBOARD             : Bool
  keymap                   : Byte → Word
  key_enqueue              : Word → State D → Except String (State D)
  ref_difftest_exec        : R → R
  ref_difftest_regcpy_dut  : R → CPU_state
  ref_difftest_regcpy_ref  : CPU_state → R → R

abbrev Exec (D R : Type) := EStateM Fault (Machine D R)

variable {D R α : Type}

def access (x : M D α) : Exec D R α := fun m =>
  match x m.toState with
  | .ok v s    => .ok v { m with toState := s }
  | .error e s => .error (.stop e) { m with toState := s }

namespace Env

variable (env : Env D)

def vaddr_ifetch (addr : Word) (len : Nat) : M D Word :=
  env.paddr_read addr len

def vaddr_read (addr : Word) (len : Nat) : M D Word :=
  env.paddr_read addr len

def vaddr_write (addr : Word) (len : Nat) (data : Word) : M D Unit :=
  env.paddr_write addr len data

end Env

def Machine.cpu (m : Machine D R) : CPU_state where
  gpr := m.gpr
  pc  := m.pc

def setGpr (i : BitVec 5) (v : Word) : Exec D R Unit :=
  modify fun m => { m with gpr := Function.update m.gpr i v }

def setState (state : RunState) : Exec D R Unit :=
  modify fun m => { m with nemu_state.state := state }

def set_nemu_state (cfg : Config) (state : RunState) (pc : Word) (halt_ret : BitVec 32) : Exec D R Unit := do
  access <| difftest_skip_ref cfg
  modify fun m => { m with nemu_state := { state, halt_pc := pc, halt_ret } }

-- Decoding.

def immI (inst : Word) : Word :=
  (inst.extractLsb' 20 12).signExtend 32

def immU (inst : Word) : Word :=
  (inst.extractLsb' 12 20).signExtend 32 <<< 12

def immS (inst : Word) : Word :=
  (inst.extractLsb' 25 7).signExtend 32 <<< 5 ||| (inst.extractLsb' 7 5).setWidth 32

def rd (inst : Word) : BitVec 5 :=
  inst.extractLsb' 7 5

def rs1 (inst : Word) : BitVec 5 :=
  inst.extractLsb' 15 5

def rs2 (inst : Word) : BitVec 5 :=
  inst.extractLsb' 20 5

namespace System

variable (sys : System D R)

-- The words that the message prints are fetched before the state is set.
def invalid_inst (thispc : Word) : Exec D R Unit := do
  discard <| access <| sys.vaddr_ifetch thispc 4
  discard <| access <| sys.vaddr_ifetch (thispc + 4) 4
  set_nemu_state sys.toConfig NEMU_ABORT thispc (-1)

-- The patterns of `decode_exec` with their bodies.
def perform (pc inst : Word) : Exec D R Unit := do
  let src1 := (← get).gpr (rs1 inst)
  let src2 := (← get).gpr (rs2 inst)
  if inst &&& 0x7f = 0x17 then
    setGpr (rd inst) (pc + immU inst)
  else if inst &&& 0x707f = 0x4003 then
    setGpr (rd inst) (← access <| sys.vaddr_read (src1 + immI inst) 1)
  else if inst &&& 0x707f = 0x23 then
    access <| sys.vaddr_write (src1 + immS inst) 1 src2
  else if inst = 0x00100073 then
    set_nemu_state sys.toConfig NEMU_END pc ((← get).gpr 10)
  else
    sys.invalid_inst pc

-- The result is `dnpc`.
def decode_exec (pc snpc inst : Word) : Exec D R Word := do
  sys.perform pc inst
  setGpr 0 0
  return snpc

def exec_once (pc : Word) : Exec D R Unit := do
  let inst ← access <| sys.vaddr_ifetch pc 4
  let dnpc ← sys.decode_exec pc (pc + 4) inst
  modify fun m => { m with pc := dnpc }

-- The check of riscv32.
def isa_difftest_checkregs (_ref_r : CPU_state) (_pc : Word) : Bool :=
  false

def checkregs (ref_r : CPU_state) (pc : Word) : Exec D R Unit :=
  if isa_difftest_checkregs ref_r pc then return
  else modify fun m => { m with nemu_state.state := NEMU_ABORT, nemu_state.halt_pc := pc }

def difftest_step (pc npc : Word) : Exec D R Unit := do
  let m ← get
  if m.skip_dut_nr_inst > 0 then
    let ref_r := sys.ref_difftest_regcpy_dut m.ref
    if ref_r.pc = npc then
      set { m with skip_dut_nr_inst := 0 }
      checkregs ref_r npc
    else
      set { m with skip_dut_nr_inst := m.skip_dut_nr_inst - 1 }
      if m.skip_dut_nr_inst - 1 = 0 then throw <| .catchUp ref_r.pc pc
  else if m.is_skip_ref then
    set { m with ref := sys.ref_difftest_regcpy_ref m.cpu m.ref, is_skip_ref := false }
  else
    let ref := sys.ref_difftest_exec m.ref
    set { m with ref }
    checkregs (sys.ref_difftest_regcpy_dut ref) pc

def trace_and_difftest (pc dnpc : Word) : Exec D R Unit :=
  if sys.DIFFTEST then sys.difftest_step pc dnpc else return

def KEYDOWN_MASK : Word := 0x8000

def send_key (scancode : Byte) (is_keydown : Bool) : Exec D R Unit := do
  let m ← get
  if m.nemu_state.state = NEMU_RUNNING ∧ sys.keymap scancode ≠ 0 then
    let am_scancode := sys.keymap scancode ||| if is_keydown then KEYDOWN_MASK else 0
    match sys.key_enqueue am_scancode m.toState with
    | .ok s => set { m with toState := s }
    | .error message => throw <| .stop <| .device message

def handle : Event → Exec D R Unit
  | .quit => setState NEMU_QUIT
  | .key scancode is_keydown => if sys.HAS_KEYBOARD then sys.send_key scancode is_keydown else return
  | .other => return

-- Where the call returns early, because too little time has passed, it finds no events.
def device_update : Exec D R Unit := do
  let m ← get
  set { m with events := m.events.tail }
  (m.events.headD []).forM sys.handle

def poll : Exec D R Unit :=
  if sys.DEVICE then sys.device_update else return

-- One iteration of the loop of `execute`. The result is `false` where the loop is left.
def iteration : Exec D R Bool := do
  let pc := (← get).pc
  sys.exec_once pc
  modify fun m => { m with g_nr_guest_inst := m.g_nr_guest_inst + 1 }
  sys.trace_and_difftest pc (← get).pc
  if (← get).nemu_state.state ≠ NEMU_RUNNING then
    return false
  else
    sys.poll
    return true

def execute : Nat → Exec D R Unit
  | 0     => return
  | n + 1 => do if ← sys.iteration then execute n

def cpu_exec (n : BitVec 64) : Exec D R Unit := do
  match (← get).nemu_state.state with
  | NEMU_END | NEMU_ABORT | NEMU_QUIT => return
  | _ =>
    setState NEMU_RUNNING
    sys.execute n.toNat
    if (← get).nemu_state.state = NEMU_RUNNING then setState NEMU_STOP

end System

def is_exit_status_bad (nemu_state : NEMUState) : Bool :=
  let good := (nemu_state.state = NEMU_END ∧ nemu_state.halt_ret = 0) ∨ nemu_state.state = NEMU_QUIT
  !good

end Nemu
