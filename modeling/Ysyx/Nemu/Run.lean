import Ysyx.Nemu.Cpu

-- The points of a run of NEMU under the debugger.

namespace Nemu

variable {D R : Type}

-- Where the program is: at the prompt, before the test of `n > 0`, behind `exec_once` with the `pc` of its
-- instruction, behind `trace_and_difftest`, or behind the command `q`. `n` counts the iterations that follow.
inductive Control
  | prompt
  | loop (n : Nat)
  | executed (pc : Word) (n : Nat)
  | compared (n : Nat)
  | exit

-- An instruction is about to be executed, or has been executed and not been compared.
def Control.Busy : Control → Prop
  | loop (_ + 1) | executed .. => True
  | _ => False

-- What happens between two points.
inductive Label
  | exec (n : BitVec 64)
  | instr
  | compare
  | leave
  | poll (events : List Event)
  | settle
  | quit

def Machine.Ended (m : Machine D R) : Prop :=
  m.nemu_state.state ∈ [NEMU_END, NEMU_ABORT, NEMU_QUIT]

def running (m : Machine D R) : Machine D R :=
  { m with nemu_state.state := NEMU_RUNNING }

def count (m : Machine D R) : Machine D R :=
  { m with g_nr_guest_inst := m.g_nr_guest_inst + 1 }

-- The end of `cpu_exec`.
def settle : Exec D R Unit :=
  get >>= fun m => if m.nemu_state.state = NEMU_RUNNING then setState NEMU_STOP else pure ()

-- The events that an iteration finds after an instruction.
def polled (sys : System D R) (m : Machine D R) : List Event :=
  if sys.DEVICE then m.events.headD [] else []

-- The commands `si` and `c` run `cpu_exec`.
inductive Step (sys : System D R) : Control × Machine D R → Label → Control × Machine D R → Prop
  | refuse {m : Machine D R} {n : BitVec 64} : m.Ended → Step sys (.prompt, m) (.exec n) (.prompt, m)
  | start {m : Machine D R} {n : BitVec 64} : ¬m.Ended → Step sys (.prompt, m) (.exec n) (.loop n.toNat, running m)
  | instr {m m' : Machine D R} {n : Nat} : sys.exec_once m.pc m = .ok () m' →
    Step sys (.loop (n + 1), m) .instr (.executed m.pc n, count m')
  | compare {m m' : Machine D R} {n : Nat} {pc : Word} : sys.trace_and_difftest pc m.pc m = .ok () m' →
    Step sys (.executed pc n, m) .compare (.compared n, m')
  | leave {m : Machine D R} {n : Nat} : m.nemu_state.state ≠ NEMU_RUNNING →
    Step sys (.compared n, m) .leave (.loop 0, m)
  | poll {m m' : Machine D R} {n : Nat} : m.nemu_state.state = NEMU_RUNNING → sys.poll m = .ok () m' →
    Step sys (.compared n, m) (.poll (polled sys m)) (.loop n, m')
  | settle {m m' : Machine D R} : settle m = .ok () m' → Step sys (.loop 0, m) .settle (.prompt, m')
  | quit {m m' : Machine D R} : setState NEMU_QUIT m = .ok () m' → Step sys (.prompt, m) .quit (.exit, m')

inductive Run (sys : System D R) (s : Control × Machine D R) : List Label → Control × Machine D R → Prop
  | nil : Run sys s [] s
  | snoc {s' s'' : Control × Machine D R} {ls : List Label} {l : Label} :
    Run sys s ls s' → Step sys s' l s'' → Run sys s (ls ++ [l]) s''

end Nemu
