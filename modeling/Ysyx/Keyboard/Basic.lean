import Ysyx.Hardware.Clocked
import Ysyx.Bytes.LittleEndian

-- The keyboard design: the PS/2 receiver with its FIFO, the FSM that reads the codes, and the counter.

namespace Keyboard

-- ps2_keyboard

structure Ps2 where
  buffer       : BitVec 10
  fifo         : BitVec 3 → Byte
  w_ptr        : BitVec 3
  r_ptr        : BitVec 3
  ready        : Bool
  overflow     : Bool
  count        : BitVec 4
  ps2_clk_sync : BitVec 3

-- `^x`
def reduceXor {n : Nat} (x : BitVec n) : Bool :=
  (List.range n).foldl (fun p i => p ^^ x.getLsbD i) false

-- `x[i] <= b`, which has no effect beyond the width.
def setBit {n : Nat} (x : BitVec n) (i : Nat) (b : Bool) : BitVec n :=
  (x &&& ~~~BitVec.twoPow n i) ||| if b then BitVec.twoPow n i else 0

namespace Ps2

variable (s : Ps2)

def data : Byte :=
  s.fifo s.r_ptr

def sampling : Bool :=
  s.ps2_clk_sync.getLsbD 2 && !s.ps2_clk_sync.getLsbD 1

-- Start bit, stop bit and odd parity.
def validFrame (ps2_data : Bool) : Bool :=
  !s.buffer.getLsbD 0 && ps2_data && reduceXor (s.buffer.extractLsb' 1 9)

-- The code that is written into the FIFO at this edge.
def push? (ps2_data : Bool) : Option Byte :=
  if s.sampling && s.count == 10 && s.validFrame ps2_data then some (s.buffer.extractLsb' 1 8) else none

def pop (nextdata_n : Bool) : Bool :=
  s.ready && !nextdata_n

-- Of two assignments to `ready` the later one wins.
def edge (clrn ps2_clk ps2_data nextdata_n : Bool) (s : Ps2) : Ps2 where
  ps2_clk_sync := s.ps2_clk_sync.extractLsb' 0 2 ++ BitVec.ofBool ps2_clk
  r_ptr    := if !clrn then 0 else if s.pop nextdata_n then s.r_ptr + 1 else s.r_ptr
  w_ptr    := if !clrn then 0 else if (s.push? ps2_data).isSome then s.w_ptr + 1 else s.w_ptr
  ready    :=
    if !clrn then false
    else if (s.push? ps2_data).isSome then true
    else if s.pop nextdata_n && s.w_ptr == s.r_ptr + 1 then false
    else s.ready
  overflow :=
    if !clrn then false
    else if (s.push? ps2_data).isSome then s.overflow || s.r_ptr == s.w_ptr + 1
    else s.overflow
  fifo     :=
    if !clrn then s.fifo
    else match s.push? ps2_data with
      | some code => Function.update s.fifo s.w_ptr code
      | none => s.fifo
  count    := if !clrn then 0 else if s.sampling then if s.count == 10 then 0 else s.count + 1 else s.count
  buffer   :=
    if clrn && s.sampling && s.count != 10 then setBit s.buffer s.count.toNat ps2_data else s.buffer

end Ps2

-- keyboard_fsm

@[match_pattern] def IDLE     : BitVec 3 := 0#3
@[match_pattern] def ACK_MAKE : BitVec 3 := 1#3
@[match_pattern] def HOLD     : BitVec 3 := 2#3
@[match_pattern] def ACK_REP  : BitVec 3 := 3#3
@[match_pattern] def ACK_F0   : BitVec 3 := 4#3
@[match_pattern] def WAIT_REL : BitVec 3 := 5#3
@[match_pattern] def ACK_REL  : BitVec 3 := 6#3

-- The states in which the FSM waits for a code.
def Waiting (state : BitVec 3) : Prop :=
  state ∈ [IDLE, HOLD, WAIT_REL]

instance : DecidablePred Waiting :=
  fun state => inferInstanceAs <| Decidable (state ∈ [IDLE, HOLD, WAIT_REL])

@[simp] theorem waiting_idle : Waiting IDLE := by decide
@[simp] theorem waiting_hold : Waiting HOLD := by decide
@[simp] theorem not_waiting_ackRep : ¬Waiting ACK_REP := by decide
@[simp] theorem not_waiting_ackRel : ¬Waiting ACK_REL := by decide

@[ext]
structure Fsm where
  state      : BitVec 3
  nextdata_n : Bool
  en_count   : Bool
  seg_data   : Byte
  is_pressed : Bool

namespace Fsm

def next_state (s : Fsm) (data : Byte) (ready : Bool) : BitVec 3 :=
  match s.state with
  | IDLE     => if ready then if data = 0xF0 then ACK_F0 else ACK_MAKE else IDLE
  | ACK_MAKE => HOLD
  | HOLD     => if ready then if data = 0xF0 then ACK_F0 else ACK_REP else HOLD
  | ACK_REP  => HOLD
  | ACK_F0   => WAIT_REL
  | WAIT_REL => if ready then ACK_REL else WAIT_REL
  | ACK_REL  => IDLE
  | _        => IDLE

-- The registers of the outputs.
def output (s : Fsm) (data : Byte) (ready : Bool) : Fsm :=
  match s.state with
  | IDLE =>
    let s := { s with nextdata_n := true, en_count := false, is_pressed := false }
    if ready && data != 0xF0 then { s with seg_data := data, en_count := true, is_pressed := true } else s
  | ACK_MAKE => { s with nextdata_n := false, en_count := false }
  | HOLD     => { s with nextdata_n := true }
  | ACK_REP  => { s with nextdata_n := false }
  | ACK_F0   => { s with nextdata_n := false }
  | WAIT_REL => { s with nextdata_n := true }
  | ACK_REL  => { s with nextdata_n := false, is_pressed := false }
  | _        => { s with nextdata_n := true, en_count := false, seg_data := 0, is_pressed := false }

def edge (rst : Bool) (data : Byte) (ready overflow : Bool) (s : Fsm) : Fsm :=
  if rst || overflow then
    { state := IDLE, nextdata_n := true, en_count := false, is_pressed := false, seg_data := 0 }
  else
    { s.output data ready with state := s.next_state data ready }

-- What an edge does in each state, without a reset.

variable {data : Byte} {ready n e p : Bool} {g : Byte}

@[simp] theorem edge_idle : edge false data ready false ⟨IDLE, n, e, g, p⟩ =
    if ready then if data = 0xF0 then ⟨ACK_F0, true, false, g, false⟩ else ⟨ACK_MAKE, true, true, data, true⟩
    else ⟨IDLE, true, false, g, false⟩ := by
  cases ready
  case false => rfl
  case true =>
    by_cases h : data = 0xF0
    case pos =>
      subst h
      rfl
    case neg =>
      have hn : next_state ⟨IDLE, n, e, g, p⟩ data true = ACK_MAKE := if_neg h
      have ho : output ⟨IDLE, n, e, g, p⟩ data true = ⟨IDLE, true, true, data, true⟩ := if_pos (by simpa using h)
      rw [edge, hn, ho, if_pos rfl, if_neg h]
      rfl

@[simp] theorem edge_ackMake : edge false data ready false ⟨ACK_MAKE, n, e, g, p⟩ =
    ⟨HOLD, false, false, g, p⟩ := (rfl)

@[simp] theorem edge_hold : edge false data ready false ⟨HOLD, n, e, g, p⟩ =
    ⟨if ready then if data = 0xF0 then ACK_F0 else ACK_REP else HOLD, true, e, g, p⟩ := (rfl)

@[simp] theorem edge_ackRep : edge false data ready false ⟨ACK_REP, n, e, g, p⟩ =
    ⟨HOLD, false, e, g, p⟩ := (rfl)

@[simp] theorem edge_ackF0 : edge false data ready false ⟨ACK_F0, n, e, g, p⟩ =
    ⟨WAIT_REL, false, e, g, p⟩ := (rfl)

@[simp] theorem edge_waitRel : edge false data ready false ⟨WAIT_REL, n, e, g, p⟩ =
    ⟨if ready then ACK_REL else WAIT_REL, true, e, g, p⟩ := (rfl)

@[simp] theorem edge_ackRel : edge false data ready false ⟨ACK_REL, n, e, g, p⟩ =
    ⟨IDLE, false, e, g, false⟩ := (rfl)

-- Without a code it does not matter what the FIFO presents.
theorem edge_of_not_ready (rst overflow : Bool) {s : Fsm} :
    s.edge rst data false overflow = s.edge rst 0 false overflow := (rfl)

end Fsm

-- top

structure Input where
  rst      : Bool
  ps2_clk  : Bool
  ps2_data : Bool

structure Top where
  kbd   : Ps2
  fsm   : Fsm
  count : Byte

namespace Top

def edge (i : Input) (s : Top) : Top where
  kbd   := s.kbd.edge (!i.rst) i.ps2_clk i.ps2_data s.fsm.nextdata_n
  fsm   := s.fsm.edge i.rst s.kbd.data s.kbd.ready s.kbd.overflow
  count := if i.rst then 0 else if s.fsm.en_count then s.count + 1 else s.count

def run (w : Nat → Input) : Top → Nat → Top :=
  Clocked.run edge w

-- The codes that are written into the FIFO in the first `n` cycles.
def pushed (w : Nat → Input) (s : Top) (n : Nat) : List Byte :=
  (List.range n).filterMap fun t => if (w t).rst then none else (s.run w t).kbd.push? (w t).ps2_data

-- The last code has been taken from the FIFO and the FSM waits for the next one.
structure Settled (s : Top) : Prop where
  empty      : s.kbd.w_ptr = s.kbd.r_ptr
  waiting    : Waiting s.fsm.state
  nextdata_n : s.fsm.nextdata_n = true
  en_count   : s.fsm.en_count = false

end Top

-- ps2_keyboard_model

def send_buffer (code : Byte) : BitVec 11 :=
  1#1 ++ BitVec.ofBool (!reduceXor code) ++ code ++ 0#1

-- The codes are sent one after another. Each bit takes six cycles, and `ps2_clk` is high in the first three.
def kbd_sendcode (l : List Byte) (t : Nat) : Input where
  rst      := false
  ps2_clk  := t % 6 < 3 || l.length ≤ t / 66
  ps2_data := (send_buffer (l.getD (t / 66) 0)).getLsbD (t / 6 % 11)

end Keyboard
