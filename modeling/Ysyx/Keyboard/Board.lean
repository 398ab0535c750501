import Ysyx.Keyboard.Receiver

-- The keyboard component of the board: it queues the scan codes of the keys and sends them bit by bit.

namespace Keyboard

-- The codes of a key: an extended key has `0xe0` in `map0` and its code in `map1`.
structure Board.Key where
  map0 : Byte
  map1 : Byte

def NOT_A_KEY   : BitVec 32 := -1
def CLK_NUM     : Nat := 10
def PS2_DATA_0  : Nat := 1
def PS2_DATA_7  : Nat := 8
def PS2_PARTIAL : Nat := 9
def PS2_STOP    : Nat := 10

def UINT2_XOR (a : Byte) : Byte :=
  (a >>> 1) ^^^ (a &&& 0b1)

def UINT4_XOR (a : Byte) : Byte :=
  UINT2_XOR ((a >>> 2) ^^^ (a &&& 0b11))

def UINT8_XOR (a : Byte) : Byte :=
  UINT4_XOR ((a >>> 4) ^^^ (a &&& 0b1111))

-- `KEYBOARD` with its two pins and the flag by which `nvboard_update` calls it.
structure Board where
  all_keys   : List Byte
  data_idx   : Nat
  left_clk   : Nat
  cur_key    : BitVec 32
  is_kb_idle : Bool
  PS2_CLK    : Bool
  PS2_DAT    : Bool

namespace Board

def powerOn : Board where
  all_keys   := []
  data_idx   := 0
  left_clk   := 0
  cur_key    := NOT_A_KEY
  is_kb_idle := true
  PS2_CLK    := false
  PS2_DAT    := false

variable (keys : Byte → Key)

def push_key (sdl_key : Byte) (is_keydown : Bool) (b : Board) : Board :=
  let e := keys sdl_key
  let all_keys := if e.map0 = 0xe0 then b.all_keys ++ [0xe0] else b.all_keys
  let at_key := if e.map0 = 0xe0 then e.map1 else e.map0
  let all_keys := if !is_keydown then all_keys ++ [0xf0] else all_keys
  { b with all_keys := all_keys ++ [at_key], is_kb_idle := false }

-- The level of `PS2_DAT` that belongs to `data_idx`, where `code` is at the front of the queue.
def ps2_dat (data_idx : Nat) (cur_key : BitVec 32) (code : Byte) : Bool :=
  if data_idx = PS2_PARTIAL then UINT8_XOR code == 0
  else if data_idx = PS2_STOP then true
  else if PS2_DATA_0 ≤ data_idx ∧ data_idx ≤ PS2_DATA_7 then cur_key.getLsbD 0
  else false

def shift (data_idx : Nat) (cur_key : BitVec 32) : BitVec 32 :=
  if PS2_DATA_0 ≤ data_idx ∧ data_idx ≤ PS2_DATA_7 then cur_key.sshiftRight 1 else cur_key

-- The part of `update_state` for a key that is being sent. It is `none` where an assertion fails, and where it
-- would take a code from an empty queue.
def send (b : Board) : Option Board :=
  if b.left_clk = 0 then
    match b.PS2_CLK, b.all_keys with
    | false, []        => none
    | false, code :: _ => some { b with
        PS2_CLK  := true
        left_clk := CLK_NUM
        PS2_DAT  := ps2_dat b.data_idx b.cur_key code
        cur_key  := shift b.data_idx b.cur_key
        data_idx := b.data_idx + 1 }
    | true, all_keys =>
      if b.data_idx = 11 then
        match all_keys with
        | []            => none
        | _ :: all_keys => some { b with
            PS2_CLK  := false
            left_clk := CLK_NUM
            data_idx := 0
            cur_key  := NOT_A_KEY
            all_keys := all_keys }
      else
        some { b with PS2_CLK := false, left_clk := CLK_NUM }
  else
    some { b with left_clk := b.left_clk - 1 }

def update_state (b : Board) : Option Board :=
  if b.cur_key = NOT_A_KEY then
    match b.all_keys with
    | []        => some { b with is_kb_idle := true }
    | code :: _ =>
      if b.data_idx = 0 then { b with cur_key := code.setWidth 32, left_clk := CLK_NUM }.send else none
  else
    b.send

end Board

-- What happens in one cycle of `clk`: some keys go down or up, and the reader drives `nextdata_n`.
structure Cycle where
  events     : List (Byte × Bool)
  nextdata_n : Bool

namespace Board

variable (keys : Byte → Key)

def push_keys (b : Board) (events : List (Byte × Bool)) : Board :=
  events.foldl (fun b e => b.push_key keys e.1 e.2) b

-- `nvboard_update` calls `update_state` unless the keyboard is idle.
def update (c : Cycle) (b : Board) : Option Board :=
  let b := b.push_keys keys c.events
  if b.is_kb_idle then some b else b.update_state

-- The inputs of the receiver over some cycles.
def transmit (b : Board) : List Cycle → Option (Board × List Ps2.Input)
  | [] => some (b, [])
  | c :: cs => do
    let b ← b.update keys c
    let (b', is) ← b.transmit cs
    some (b', ⟨b.PS2_CLK, b.PS2_DAT, c.nextdata_n⟩ :: is)

end Board

-- The codes that `push_key` queues.
def scan_codes (keys : Byte → Board.Key) (e : Byte × Bool) : List Byte :=
  (if (keys e.1).map0 = 0xe0 then [0xe0] else []) ++ (if e.2 then [] else [0xf0]) ++
  [if (keys e.1).map0 = 0xe0 then (keys e.1).map1 else (keys e.1).map0]

def queued (keys : Byte → Board.Key) (cs : List Cycle) : List Byte :=
  cs.flatMap fun c => c.events.flatMap (scan_codes keys)

end Keyboard
