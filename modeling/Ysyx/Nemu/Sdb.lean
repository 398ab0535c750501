import Ysyx.Nemu.Cpu

-- The simple debugger: the parsing of its arguments, its commands and its main loop.

namespace Nemu

-- A string without its terminating zero.
abbrev Text := List Byte

-- In the "C" locale.
def isspace (c : Byte) : Bool :=
  c == 0x20 || (0x09 ≤ c && c ≤ 0x0d)

def skip_spaces (s : Text) : Text :=
  s.dropWhile isspace

-- The digit that a character stands for.
def digit? (base : Nat) (c : Byte) : Option Nat :=
  let v :=
    if 0x30 ≤ c ∧ c ≤ 0x39 then c.toNat - 0x30
    else if 0x41 ≤ c ∧ c ≤ 0x5a then c.toNat - 0x41 + 10
    else if 0x61 ≤ c ∧ c ≤ 0x7a then c.toNat - 0x61 + 10
    else 36
  if v < base then some v else none

-- The value of the leading digits, and what follows them.
def digits (base value : Nat) : Text → Nat × Text
  | [] => (value, [])
  | c :: s =>
    match digit? base c with
    | some d => digits base (value * base + d) s
    | none   => (value, c :: s)

-- At least one digit.
def number (base : Nat) (s : Text) : Option (Nat × Text) :=
  match s with
  | []     => none
  | c :: _ => if (digit? base c).isSome then some (digits base 0 s) else none

-- `strtoull` of a text that does not begin with a space or a minus sign. The value is not bounded: `errno` is
-- `ERANGE` where it does not fit into 64 bits. It is `none` where nothing is converted.
def strtoull (s : Text) (base : Nat) : Option (Nat × Text) :=
  let s := match s with
    | 0x2b#8 :: s => s
    | s => s
  match base, s with
  | 0, 0x30#8 :: x :: s =>
    if x = 0x78 ∨ x = 0x58 then
      match number 16 s with
      | some r => some r
      -- Without a digit the prefix is not a prefix, and only its zero is converted.
      | none   => some (0, x :: s)
    else
      number 8 (0x30 :: x :: s)
  | 0, 0x30#8 :: s => number 8 (0x30 :: s)
  | 0, s           => number 10 s
  | base, s        => number base s

def parse_uint64 (text : Option Text) (base : Nat) : Option (BitVec 64 × Text) :=
  match text with
  | none => none
  | some text =>
    let start := skip_spaces text
    if start.head? = none ∨ start.head? = some 0x2d then none
    else match strtoull start base with
      | none => none
      | some (result, tail) => if result < 2 ^ 64 then some (BitVec.ofNat 64 result, tail) else none

-- The number of words and the address of a command `x`, or the message that it prints instead.
def examined (args : Option Text) : Except String (BitVec 64 × Word) :=
  match parse_uint64 args 10 with
  | none => .error "Usage: x N ADDR (N must be a positive integer)"
  | some (n, addr_str) =>
    if n = 0 then .error "Usage: x N ADDR (N must be a positive integer)"
    else match parse_uint64 (some addr_str) 0 with
      | none => .error "Usage: x N ADDR (ADDR must be a valid numeric address)"
      | some (addr_value, tail) =>
        if skip_spaces tail ≠ [] ∨ addr_value > 0xffffffff then
          .error "Usage: x N ADDR (ADDR must be a valid numeric address)"
        else
          let start : Word := addr_value.setWidth 32
          let max_words := (0xffffffff - start.setWidth 64) / 4 + 1
          if n > max_words then .error "Memory range wraps around the virtual address space"
          else .ok (n, start)

-- The number of instructions of a command `si`.
def stepped (args : Option Text) : Except String (BitVec 64) :=
  match args with
  | none => .ok 1
  | some _ =>
    match parse_uint64 args 10 with
    | none => .error "Usage: si [N] (N must be a positive integer)"
    | some (n, tail) =>
      if n = 0 ∨ skip_spaces tail ≠ [] then .error "Usage: si [N] (N must be a positive integer)" else .ok n

variable {D R : Type} (sys : System D R)

namespace System

-- The words from word `i` on.
def examine (start : Word) (i : Nat) : Nat → Exec D R Unit
  | 0 => return
  | n + 1 => do
    discard <| access <| sys.vaddr_read (start + BitVec.ofNat 32 (i * 4)) 4
    examine start (i + 1) n

-- The handlers of the commands. A negative result ends the main loop.

def cmd_c : Exec D R Int := do
  sys.cpu_exec (-1)
  return 0

def cmd_si (args : Option Text) : Exec D R Int := do
  match stepped args with
  | .ok n    => sys.cpu_exec n
  | .error _ => return 0
  return 0

def cmd_x (args : Option Text) : Exec D R Int := do
  match examined args with
  | .ok (n, start) => sys.examine start 0 n.toNat
  | .error _       => return 0
  return 0

def cmd_q : Exec D R Int := do
  setState NEMU_QUIT
  return -1

-- The commands `help` and `info` only print.
def handler (cmd : Text) (args : Option Text) : Exec D R Int :=
  if cmd = [0x63] then sys.cmd_c
  else if cmd = [0x71] then cmd_q
  else if cmd = [0x73, 0x69] then sys.cmd_si args
  else if cmd = [0x78] then sys.cmd_x args
  else return 0

end System

-- The first token of a line, and what follows the space behind it.
def tokens (str : Text) : Option (Text × Option Text) :=
  match str.dropWhile (· == 0x20) with
  | [] => none
  | s =>
    let args := (s.dropWhile (· != 0x20)).drop 1
    some (s.takeWhile (· != 0x20), if args = [] then none else some args)

-- The main loop, for the lines that are entered.
def System.sdb_mainloop : List Text → Exec D R Unit
  | [] => return
  | str :: lines => do
    match tokens str with
    | none => sdb_mainloop lines
    | some (cmd, args) =>
      if (← sys.handler cmd args) < 0 then return else sdb_mainloop lines

end Nemu
