import Ysyx.Bytes.LittleEndian

-- The numbers of keys, and the codes of their strokes.

namespace Keys

def KEYDOWN_MASK : Word := 0x8000

-- The keys are numbered from `n` on, and each is entered under its scancode.
def enter (SDL_SCANCODE : String → Byte) (n : Nat) (keymap : Byte → Word) : List String → Byte → Word
  | []          => keymap
  | key :: keys => enter SDL_SCANCODE (n + 1) (Function.update keymap (SDL_SCANCODE key) (BitVec.ofNat 32 n)) keys

-- Key 0 stands for no key.
def keymap (SDL_SCANCODE : String → Byte) (keys : List String) : Byte → Word :=
  enter SDL_SCANCODE 1 (fun _ => 0) keys

def code (key : Word) (down : Bool) : Word :=
  key ||| if down then KEYDOWN_MASK else 0

section

variable {SDL_SCANCODE : String → Byte} {keys : List String} {m : Byte → Word} {n k : Nat} {key : Word} {down : Bool}

theorem enter_le (hm : ∀ b, (m b).toNat ≤ k) (hn : n + keys.length ≤ k + 1) (b : Byte) :
    (enter SDL_SCANCODE n m keys b).toNat ≤ k := by
  induction keys generalizing n m
  case nil => exact hm b
  case cons key keys hi =>
    rw [List.length_cons] at hn
    refine hi (fun b => ?_) (by omega)
    rw [Function.update_apply]
    split
    case isTrue => exact (Nat.mod_le n _).trans (by omega)
    case isFalse => exact hm b

theorem keymap_lt (h : keys.length < 0x8000) (b : Byte) : (keymap SDL_SCANCODE keys b).toNat < 0x8000 :=
  Nat.lt_of_le_of_lt (enter_le (fun _ => Nat.zero_le _) (Nat.add_comm 1 _).le b) h

theorem code_ne_zero (h : key ≠ 0) : code key down ≠ 0 :=
  fun hc => h (BitVec.or_eq_zero_iff.mp hc).left

theorem and_mask (h : key.toNat < 0x8000) : key &&& KEYDOWN_MASK = 0 := by
  have hm : KEYDOWN_MASK = BitVec.twoPow 32 15 := by decide
  have hk : key.getLsbD 15 = false := Nat.testBit_lt_two_pow h
  rw [hm, BitVec.and_twoPow, hk]
  rfl

theorem and_not_mask (h : key.toNat < 0x8000) : key &&& ~~~KEYDOWN_MASK = key := by
  have ha : KEYDOWN_MASK ||| ~~~KEYDOWN_MASK = BitVec.allOnes 32 := by decide
  calc key &&& ~~~KEYDOWN_MASK
    _ = (key &&& KEYDOWN_MASK) ||| (key &&& ~~~KEYDOWN_MASK) := by rw [and_mask h]; exact BitVec.zero_or.symm
    _ = key := by rw [← BitVec.and_or_distrib_left, ha, BitVec.and_allOnes]

-- The number of the key and the direction can be read off the code.

theorem code_and_mask (h : key.toNat < 0x8000) : (code key down &&& KEYDOWN_MASK ≠ 0) ↔ down = true := by
  rw [code, BitVec.and_or_distrib_right, and_mask h]
  cases down
  case false => simp
  case true => simp [KEYDOWN_MASK]

theorem code_and_not_mask (h : key.toNat < 0x8000) : code key down &&& ~~~KEYDOWN_MASK = key := by
  rw [code, BitVec.and_or_distrib_right, and_not_mask h]
  cases down
  case false => simp
  case true => simp

end
end Keys
