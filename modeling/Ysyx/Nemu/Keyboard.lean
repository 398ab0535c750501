import Ysyx.Keys.Keymap
import Ysyx.Keys.Queue
import Ysyx.Nemu.Cpu

-- The keyboard: SDL events go into a queue, and the guest takes them out through a data register.

namespace Nemu.Keyboard

open Keys (Queue)

def NEMU_KEYS : List String := [
  "ESCAPE", "F1", "F2", "F3", "F4", "F5", "F6", "F7", "F8", "F9", "F10", "F11", "F12",
  "GRAVE", "1", "2", "3", "4", "5", "6", "7", "8", "9", "0", "MINUS", "EQUALS", "BACKSPACE",
  "TAB", "Q", "W", "E", "R", "T", "Y", "U", "I", "O", "P", "LEFTBRACKET", "RIGHTBRACKET", "BACKSLASH",
  "CAPSLOCK", "A", "S", "D", "F", "G", "H", "J", "K", "L", "SEMICOLON", "APOSTROPHE", "RETURN",
  "LSHIFT", "Z", "X", "C", "V", "B", "N", "M", "COMMA", "PERIOD", "SLASH", "RSHIFT",
  "LCTRL", "APPLICATION", "LALT", "SPACE", "RALT", "RCTRL",
  "UP", "DOWN", "LEFT", "RIGHT", "INSERT", "DELETE", "HOME", "END", "PAGEUP", "PAGEDOWN"]

def NEMU_KEY_NONE : Word := 0
def CONFIG_I8042_DATA_PORT : Word := 0x60
def CONFIG_I8042_DATA_MMIO : Word := 0xa0000060

-- The scancodes are those of SDL.
variable (SDL_SCANCODE : String → Byte)

def keymap : Byte → Word :=
  Keys.keymap SDL_SCANCODE NEMU_KEYS

def key_enqueue (am_scancode : Word) (s : State Queue) : Except String (State Queue) :=
  let q := s.device.put am_scancode
  if q.key_r ≠ q.key_f then .ok { s with device := q } else .error "key queue overflow!"

def key_dequeue (q : Queue) : Word × Queue :=
  q.take NEMU_KEY_NONE

def i8042_data_io_handler (i8042_data_port_base : HostAddr) (offset : Word) (_len : Nat) (is_write : Bool)
    (s : State Queue) : Except String (State Queue) :=
  if is_write then .error "!is_write"
  else if offset ≠ 0 then .error "offset == 0"
  else
    let (key, q) := key_dequeue s.device
    .ok { s with device := q, host := s.host.store i8042_data_port_base 4 key }

-- The region that `init_i8042` adds to the address space of the ports, or to that of the memory.
def region (port : Bool) (i8042_data_port_base : HostAddr) : IOMap Queue :=
  let low := if port then CONFIG_I8042_DATA_PORT else CONFIG_I8042_DATA_MMIO
  { name     := "keyboard"
    low
    high     := low + 4 - 1
    space    := i8042_data_port_base
    callback := some (i8042_data_io_handler i8042_data_port_base) }

variable {R : Type}

-- NEMU with the keyboard as its device.
def attach (sys : System Queue R) : System Queue R :=
  { sys with HAS_KEYBOARD := true, keymap := keymap SDL_SCANCODE, key_enqueue := key_enqueue }

-- What happens to the keyboard: an event of SDL, a read of the data register, and that NEMU goes on or stops.
inductive Op
  | send_key (scancode : Byte) (is_keydown : Bool)
  | read
  | state (state : RunState)

-- The result is what the guest reads.
def perform (sys : System Queue R) (map : IOMap Queue) : Op → Exec Queue R (Option Word)
  | .send_key scancode is_keydown => do
    (attach SDL_SCANCODE sys).send_key scancode is_keydown
    return none
  | .read => do return some (← access <| map_read sys.toConfig map.low 4 (some map))
  | .state state => do
    setState state
    return none

-- The operations have been performed one after the other, and `values` have been read.
inductive Runs (sys : System Queue R) (map : IOMap Queue) (m₀ : Machine Queue R) :
    List Op → List Word → Machine Queue R → Prop
  | nil : Runs sys map m₀ [] [] m₀
  | snoc {ops : List Op} {op : Op} {values : List Word} {v : Option Word} {m m' : Machine Queue R} :
    Runs sys map m₀ ops values m → perform SDL_SCANCODE sys map op m = .ok v m' →
    Runs sys map m₀ (ops ++ [op]) (values ++ v.toList) m'

-- The codes of the mapped keys that are sent while NEMU is running.

def record : RunState × List Word → Op → RunState × List Word
  | (state, codes), .send_key scancode is_keydown =>
    (state, if state = NEMU_RUNNING ∧ keymap SDL_SCANCODE scancode ≠ 0 then
      codes ++ [Keys.code (keymap SDL_SCANCODE scancode) is_keydown] else codes)
  | (state, codes), .read   => (state, codes)
  | (_, codes), .state state => (state, codes)

def history (state : RunState) (ops : List Op) : RunState × List Word :=
  ops.foldl (record SDL_SCANCODE) (state, [])

-- The codes among the values that the guest has read.
def received (values : List Word) : List Word :=
  values.filter (· ≠ NEMU_KEY_NONE)

end Nemu.Keyboard
