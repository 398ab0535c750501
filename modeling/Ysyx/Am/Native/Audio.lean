import Ysyx.Bytes.LittleEndian

-- The audio device of the native platform: a pipe between `__am_audio_play` and the callback of SDL.

namespace Am.Native.Audio

-- `read(rfd, stream, nbyte)` with the result `n`: the bytes that are read, and those that stay in the pipe.
def read (pipe : List Byte) (nbyte n : Nat) : Option (List Byte × List Byte) :=
  if 0 < n ∧ n ≤ nbyte ∧ n ≤ pipe.length then some (pipe.take n, pipe.drop n) else none

-- `write(wfd, buf, len)` with the result `n`, or with the result -1 for `n = 0`.
def write (cap : Nat) (pipe buf : List Byte) (n : Nat) : Option (List Byte) :=
  if n ≤ buf.length ∧ pipe.length + n ≤ cap then some (pipe ++ buf.take n) else none

-- A callback that has returned: the length that SDL asked for, the contents of the stream, and the number of
-- bytes in it that are no padding.
structure Output where
  len    : Nat
  stream : List Byte
  nread  : Nat
deriving DecidableEq, Repr

-- Where the call of `audio_write` stands is part of the state, since callbacks run while it waits for the pipe.
-- The last two fields record the bytes passed to `__am_audio_play` and the callbacks that have returned.
structure State where
  pipe    : List Byte := []
  count   : Nat := 0
  buf     : List Byte := []
  nwrite  : Nat := 0
  played  : List Byte := []
  outputs : List Output := []
deriving DecidableEq, Repr

-- The local variables of the loop of `audio_play`.
structure Reading where
  pipe   : List Byte
  stream : List Byte
  b      : Nat

-- `while (b < nread)`, where `ns` are the results of `read`.
def readLoop (nread : Nat) : List Nat → Reading → Option Reading
  | [], r      => if r.b < nread then none else some r
  | n :: ns, r =>
    if r.b < nread then do
      let (bytes, pipe) ← read r.pipe nread n
      readLoop nread ns { pipe, stream := bytes ++ r.stream.drop n, b := r.b + n }
    else
      none

-- The callback for a stream with the given contents.
def audio_play (stream : List Byte) (ns : List Nat) (s : State) : Option State := do
  let len := stream.length
  let nread := if s.count < len then s.count else len
  let r ← readLoop nread ns { pipe := s.pipe, stream, b := 0 }
  let stream := if len > nread then r.stream.take nread ++ List.replicate (len - nread) 0 else r.stream
  return { s with pipe := r.pipe, count := s.count - nread, outputs := s.outputs ++ [{ len, stream, nread }] }

-- `__am_audio_play`, up to the loop of `audio_write`.
def am_audio_play (buf : List Byte) (s : State) : Option State :=
  if s.nwrite < s.buf.length then none else some { s with buf, nwrite := 0, played := s.played ++ buf }

-- One iteration of the loop of `audio_write`, where `n` is the result of `write`.
def audio_write (cap n : Nat) (s : State) : Option State :=
  if s.nwrite < s.buf.length then do
    let pipe ← write cap s.pipe s.buf n
    return { s with pipe, count := s.count + n, nwrite := s.nwrite + n }
  else
    none

inductive Event
  | play (buf : List Byte)
  | write (n : Nat)
  | callback (stream : List Byte) (ns : List Nat)
deriving DecidableEq, Repr

-- `cap` is the capacity of the pipe.
def step (cap : Nat) (s : State) : Event → Option State
  | .play buf           => am_audio_play buf s
  | .write n            => audio_write cap n s
  | .callback stream ns => audio_play stream ns s

-- The states that are reached by events that meet `P`.
inductive Run (cap : Nat) (P : State → Event → Prop) : State → Prop
  | init : Run cap P {}
  | step {s s' : State} {e : Event} : Run cap P s → P s e → step cap s e = some s' → Run cap P s'

-- The bytes handed to SDL without the padding.
def State.handed (s : State) : List Byte :=
  s.outputs.flatMap fun o => o.stream.take o.nread

structure State.Correct (s : State) : Prop where
  handed : s.handed <+: s.played
  filled : ∀ o ∈ s.outputs, o.stream.length = o.len ∧ o.nread ≤ o.len ∧ ∀ b ∈ o.stream.drop o.nread, b = 0
  count  : s.count = s.pipe.length

end Am.Native.Audio
