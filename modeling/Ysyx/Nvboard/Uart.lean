import Ysyx.Bytes.LittleEndian

-- The serial port of the board.

namespace Nvboard

-- `UART` with its pin `UART_RX`, the variables by which `nvboard_update` calls it and what it has fed to the terminal.
structure Uart where
  txState      : Nat
  rxState      : Nat
  divisor      : Nat
  txData       : Byte
  rxData       : Byte
  rxSendingStr : List Byte
  divisorCnt   : Int
  isRxIdle     : Bool
  rx           : Byte
  fed          : List Byte

namespace Uart

-- Two members are not initialised.
def powerOn (txData rxData : Byte) : Uart where
  txState      := 0
  rxState      := 0
  divisor      := 16
  txData       := txData
  rxData       := rxData
  rxSendingStr := []
  divisorCnt   := 15
  isRxIdle     := true
  rx           := 1
  fed          := []

-- `tx` is `*p_tx`.
def txReceive (tx : Byte) (u : Uart) : Uart :=
  let u := { u with divisorCnt := u.divisor - 1 }
  if u.txState = 0 then
    if tx = 0 then { u with txData := 0, txState := u.txState + 1 } else u
  else if 1 ≤ u.txState ∧ u.txState ≤ 8 then
    { u with txData := (tx <<< 7) ||| (u.txData >>> 1), txState := u.txState + 1 }
  else if u.txState = 9 then
    if tx ≠ 0 then { u with txState := 0, fed := u.fed ++ [u.txData] } else u
  else
    u

def rxSend (u : Uart) : Uart :=
  if u.rxState = 0 then
    -- A string ends with a zero.
    let u := { u with rxData := u.rxSendingStr.headD 0 }
    if u.rxData = 0 then { u with isRxIdle := true }
    else { u with rxSendingStr := u.rxSendingStr.tail, rx := 0, rxState := u.rxState + 1 }
  else if 1 ≤ u.rxState ∧ u.rxState ≤ 8 then
    { u with rx := u.rxData &&& 1, rxData := u.rxData >>> 1, rxState := u.rxState + 1 }
  else if u.rxState = 9 then
    { u with rx := 1, rxState := 0 }
  else
    u

def rxGetchar (ch : Byte) (u : Uart) : Uart :=
  { u with rxSendingStr := u.rxSendingStr ++ [ch], isRxIdle := false }

-- What `nvboard_update` does when the divider has run out. `UART_TX` is connected to `UART_RX`.
def tick (u : Uart) : Uart :=
  let u := u.txReceive u.rx
  if !u.isRxIdle then u.rxSend else u

-- The part of `nvboard_update` for the serial port.
def update (u : Uart) : Uart :=
  let u := { u with divisorCnt := u.divisorCnt - 1 }
  if u.divisorCnt < 0 then u.tick else u

inductive Event
  | update
  | getchar (ch : { ch : Byte // 1 ≤ ch ∧ ch ≤ 127 })

def next (e : Event) (u : Uart) : Uart :=
  match e with
  | .update     => u.update
  | .getchar ch => u.rxGetchar ch

end Uart

end Nvboard
