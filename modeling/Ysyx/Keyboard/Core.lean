import Ysyx.Keyboard.Basic

-- The keyboard design as seen by the FSM, with at most one unread code.

namespace Keyboard

@[ext]
structure Core where
  fsm   : Fsm
  count : Byte
  head  : Option Byte

namespace Core

def edge (push : Option Byte) (c : Core) : Core where
  fsm   := c.fsm.edge false (c.head.getD 0) c.head.isSome false
  count := if c.fsm.en_count then c.count + 1 else c.count
  head  := push <|> if c.fsm.nextdata_n then c.head else none

structure Settled (c : Core) : Prop where
  head       : c.head = none
  waiting    : Waiting c.fsm.state
  nextdata_n : c.fsm.nextdata_n = true
  en_count   : c.fsm.en_count = false

theorem settled_iff {c : Core} : c.Settled ↔
    c.head = none ∧ Waiting c.fsm.state ∧ c.fsm.nextdata_n = true ∧ c.fsm.en_count = false :=
  ⟨fun ⟨h₁, h₂, h₃, h₄⟩ => ⟨h₁, h₂, h₃, h₄⟩, fun ⟨h₁, h₂, h₃, h₄⟩ => ⟨h₁, h₂, h₃, h₄⟩⟩

end Core

-- What has been made of the codes while the design is settled.
structure Key where
  hold  : Bool
  seg   : Byte
  count : Byte

namespace Key

def start : Key :=
  ⟨false, 0, 0⟩

-- The effect of one code. Since the FSM still sees the code `F0` when it waits for the code that follows,
-- it does not skip the latter.
def press (k : Key) (code : Byte) : Key :=
  if code = 0xF0 then { k with hold := false }
  else if k.hold then k
  else ⟨true, code, k.count + 1⟩

def core (k : Key) : Core where
  fsm := {
    state      := if k.hold then HOLD else IDLE
    nextdata_n := true
    en_count   := false
    seg_data   := k.seg
    is_pressed := k.hold
  }
  count := k.count
  head  := none

-- The code has just been written into the FIFO.
def loaded (k : Key) (code : Byte) : Core :=
  { k.core with head := some code }

variable {k : Key} {code : Byte} {a : Nat}

theorem core_edge {push : Option Byte} : k.core.edge push = { k.core with head := push } := by
  cases h : k.hold <;> simp [core, Core.edge, h]

theorem core_settled : k.core.Settled := by
  cases h : k.hold <;> simp [core, Core.settled_iff, h]

theorem loaded_settles : (Core.edge none)^[5] (k.loaded code) = (k.press code).core := by
  by_cases hc : code = 0xF0#8
  all_goals cases h : k.hold <;> simp [loaded, core, press, Core.edge, hc, h]

theorem loaded_not_settled (ha : a < 5) : ¬((Core.edge none)^[a] (k.loaded code)).Settled := by
  by_cases hc : code = 0xF0#8
  all_goals cases h : k.hold
  all_goals
    match a with
    | 0 | 1 | 2 | 3 | 4 => simp [Core.settled_iff, loaded, core, Core.edge, hc, h]

end Key
-- A key that is pressed, repeated and released. Its code is not one of the prefixes.
structure Stroke where
  code    : Byte
  repeats : Nat
  ne_f0   : code ≠ 0xF0
  ne_e0   : code ≠ 0xE0

def Stroke.codes (st : Stroke) : List Byte :=
  List.replicate (1 + st.repeats) st.code ++ [0xF0, st.code]

def codes (strokes : List Stroke) : List Byte :=
  strokes.flatMap Stroke.codes

theorem codes_append {strokes : List Stroke} {st : Stroke} :
    codes (strokes ++ [st]) = codes strokes ++ st.codes := by
  simp [codes]

namespace Key

variable {k : Key} {st : Stroke}

theorem press_repeats (h : k.hold = true) (hc : code ≠ 0xF0) {r : Nat} :
    (List.replicate r code).foldl press k = k := by
  induction r
  case zero => rfl
  case succ r ih => rw [List.replicate_succ, List.foldl_cons, press, if_neg hc, if_pos h, ih]

-- The code that follows `F0` is counted as well.
theorem press_codes : st.codes.foldl press k =
    ⟨true, st.code, (if k.hold then k.count else k.count + 1) + 1⟩ := by
  have hc : ¬st.code = 0xF0#8 := st.ne_f0
  have hp : (k.press st.code).hold = true := by
    cases h : k.hold <;> simp [press, hc, h]
  have hr : (List.replicate (1 + st.repeats) st.code).foldl press k = k.press st.code := by
    rw [Nat.add_comm, List.replicate_succ, List.foldl_cons, press_repeats hp st.ne_f0]
  rw [Stroke.codes, List.foldl_append, hr]
  cases h : k.hold <;> simp [press, hc, h]

theorem press_strokes {strokes : List Stroke} : (codes (strokes ++ [st])).foldl press start =
    ⟨true, st.code, BitVec.ofNat 8 (strokes.length + 2)⟩ := by
  induction strokes using List.reverseRecOn generalizing st
  case nil =>
    rw [codes_append, List.foldl_append, press_codes]
    rfl
  case append_singleton l _ ih =>
    rw [codes_append, List.foldl_append, ih, press_codes, List.length_append]
    simp [BitVec.ofNat_add, BitVec.add_assoc]

end Key
end Keyboard
