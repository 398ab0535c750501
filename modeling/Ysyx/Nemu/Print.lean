import Ysyx.Nemu.Sdb

-- The commands of the debugger with what they print.

namespace Nemu

inductive Line
  | message (text : String)
  | word (addr value : Word)
  deriving DecidableEq

-- `out` has the lines of the commands. What `cpu_exec` prints itself is left out.
structure Console (D R : Type) extends Machine D R where
  out : List Line

def Console.printed {D R : Type} (c : Console D R) (line : Line) : Console D R :=
  { c with out := c.out ++ [line] }

abbrev Shell (D R : Type) := EStateM Fault (Console D R)

namespace Shell

variable {D R α : Type}

-- A part of a command that prints nothing.
def silent (x : Exec D R α) : Shell D R α := fun c =>
  match x c.toMachine with
  | .ok v m    => .ok v { c with toMachine := m }
  | .error e m => .error e { c with toMachine := m }

def printf (line : Line) : Shell D R Unit :=
  modify fun c => c.printed line

variable (sys : System D R)

def examine (start : Word) (i : Nat) : Nat → Shell D R Unit
  | 0 => return
  | n + 1 => do
    let addr := start + BitVec.ofNat 32 (i * 4)
    let value ← silent <| access <| sys.vaddr_read addr 4
    printf <| .word addr value
    examine start (i + 1) n

def cmd_si (args : Option Text) : Shell D R Int := do
  match stepped args with
  | .ok n       => silent <| sys.cpu_exec n
  | .error text => printf <| .message text
  return 0

def cmd_x (args : Option Text) : Shell D R Int := do
  match examined args with
  | .ok (n, start) => examine sys start 0 n.toNat
  | .error text    => printf <| .message text
  return 0

end Shell
end Nemu
