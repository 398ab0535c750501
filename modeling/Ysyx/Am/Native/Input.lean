import Ysyx.Keys.Keymap
import Ysyx.Keys.Queue

-- The keyboard of the native platform: a thread puts the events of SDL into a queue, and the program takes them out.

namespace Am.Native.Input

open Keys (Queue KEYDOWN_MASK)

def AM_KEYS : List String := [
  "ESCAPE", "F1", "F2", "F3", "F4", "F5", "F6", "F7", "F8", "F9", "F10", "F11", "F12",
  "GRAVE", "1", "2", "3", "4", "5", "6", "7", "8", "9", "0", "MINUS", "EQUALS", "BACKSPACE",
  "TAB", "Q", "W", "E", "R", "T", "Y", "U", "I", "O", "P", "LEFTBRACKET", "RIGHTBRACKET", "BACKSLASH",
  "CAPSLOCK", "A", "S", "D", "F", "G", "H", "J", "K", "L", "SEMICOLON", "APOSTROPHE", "RETURN",
  "LSHIFT", "Z", "X", "C", "V", "B", "N", "M", "COMMA", "PERIOD", "SLASH", "RSHIFT",
  "LCTRL", "APPLICATION", "LALT", "SPACE", "RALT", "RCTRL",
  "UP", "DOWN", "LEFT", "RIGHT", "INSERT", "DELETE", "HOME", "END", "PAGEUP", "PAGEDOWN"]

def AM_KEY_NONE : Word := 0

structure AM_INPUT_KEYBRD_T where
  keydown : Bool
  keycode : Word
deriving DecidableEq, Repr

-- The scancodes of SDL reach behind the array `keymap`, where `behind` is found.
structure Platform where
  SDL_SCANCODE : String → Byte
  behind       : Nat → Word

-- The critical sections of the two threads.
inductive Op
  | key (scancode : Nat) (keydown : Bool)
  | keybrd

namespace Platform

variable (p : Platform)

def keymap (scancode : Nat) : Word :=
  if scancode < 256 then Keys.keymap p.SDL_SCANCODE AM_KEYS (BitVec.ofNat 8 scancode) else p.behind scancode

-- One event of a key in `event_thread`.
def event_thread (scancode : Nat) (keydown : Bool) (q : Queue) : Queue :=
  if p.keymap scancode ≠ 0 then q.put (Keys.code (p.keymap scancode) keydown) else q

end Platform

def am_input_keybrd (q : Queue) : AM_INPUT_KEYBRD_T × Queue :=
  let (k, q) := q.take AM_KEY_NONE
  ({ keydown := k &&& KEYDOWN_MASK ≠ 0, keycode := k &&& ~~~KEYDOWN_MASK }, q)

-- The queue, and what the calls of `__am_input_keybrd` have returned.
def Platform.step (p : Platform) (s : Queue × List AM_INPUT_KEYBRD_T) : Op → Queue × List AM_INPUT_KEYBRD_T
  | .key scancode keydown => (p.event_thread scancode keydown s.fst, s.snd)
  | .keybrd               => ((am_input_keybrd s.fst).snd, s.snd ++ [(am_input_keybrd s.fst).fst])

def Platform.run (p : Platform) (ops : List Op) : Queue × List AM_INPUT_KEYBRD_T :=
  ops.foldl p.step (.init, [])

-- The events of the mapped keys.

def Platform.event (p : Platform) : Op → Option AM_INPUT_KEYBRD_T
  | .key scancode keydown =>
    if scancode < 256 ∧ p.keymap scancode ≠ 0 then some { keydown, keycode := p.keymap scancode } else none
  | .keybrd => none

def Platform.events (p : Platform) (ops : List Op) : List AM_INPUT_KEYBRD_T :=
  ops.filterMap p.event

-- The events among the results.
def received (results : List AM_INPUT_KEYBRD_T) : List AM_INPUT_KEYBRD_T :=
  results.filter (·.keycode ≠ AM_KEY_NONE)

-- The events come out in their order, and no key is reported only when all have come out.
structure Platform.Delivered (p : Platform) (ops : List Op) : Prop where
  order : received (p.run ops).snd <+: p.events ops
  all   : (am_input_keybrd (p.run ops).fst).fst.keycode = AM_KEY_NONE → received (p.run ops).snd = p.events ops

-- The next event of a key finds a free slot, and its scancode is in the array (or nothing is found behind it).
def Platform.Room (p : Platform) (q : Queue) : Op → Prop
  | .key scancode _ => p.keymap scancode ≠ 0 → scancode < 256 ∧ (q.key_r + 1) % Keys.KEY_QUEUE_LEN ≠ q.key_f
  | .keybrd         => True

-- The scancode is in the array.
def Op.InArray : Op → Prop
  | .key scancode _ => scancode < 256
  | .keybrd         => True

end Am.Native.Input
