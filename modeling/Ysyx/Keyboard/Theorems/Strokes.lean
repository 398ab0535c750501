import Ysyx.Keyboard.Theorems.Refines

-- Runs of the keyboard design after a reset, for all waveforms of the PS/2 lines.

namespace Keyboard

-- The core after the codes `l`, of which the last one has been written `a` cycles ago.
inductive Phase : List Byte → Nat → Core → Prop
  | settled : 5 ≤ a → Phase l a (l.foldl Key.press Key.start).core
  | busy : a < 5 → Phase (l ++ [code]) a ((Core.edge none)^[a] ((l.foldl Key.press Key.start).loaded code))

variable {s : Top} {w : Nat → Input} {l : List Byte} {code : Byte} {a n : Nat} {c : Core} {i : Input}

namespace Phase

theorem edge (h : Phase l a c) : Phase l (a + 1) (c.edge none) := by
  cases h
  case settled h =>
    rw [Key.core_edge]
    exact .settled (Nat.le_succ_of_le h)
  case busy l code h =>
    rw [← Function.iterate_succ_apply' (Core.edge none)]
    by_cases h₅ : a + 1 < 5
    case pos => exact .busy h₅
    case neg =>
      obtain rfl : a = 4 := by omega
      have hs : (l ++ [code]).foldl Key.press Key.start = (l.foldl Key.press Key.start).press code := by simp
      rw [Key.loaded_settles, ← hs]
      exact .settled (by decide)

theorem edge_push (code : Byte) (h : Phase l a c) (ha : 5 ≤ a) :
    c.head = none ∧ Phase (l ++ [code]) 0 (c.edge (some code)) := by
  cases h
  case settled =>
    rw [Key.core_edge]
    exact ⟨rfl, .busy (by decide)⟩
  case busy => omega

theorem settled_iff (h : Phase l a c) : c.Settled ↔ 5 ≤ a := by
  cases h
  case settled h => exact iff_of_true Key.core_settled h
  case busy h => exact iff_of_false (Key.loaded_not_settled h) (Nat.not_le_of_lt h)

theorem eq_of_settled (h : Phase l a c) (ha : 5 ≤ a) : c = (l.foldl Key.press Key.start).core := by
  cases h
  case settled => rfl
  case busy => omega

end Phase

-- The invariant of runs.
structure Inv (l : List Byte) (a : Nat) (s : Top) : Prop where
  rx   : Rx a s.kbd
  core : ∃ c, Abs s c ∧ Phase l a c

theorem inv_reset (h : i.rst = true) : Inv [] 5 (s.edge i) where
  rx := ⟨by simp [Top.edge, Ps2.edge, h], by simp [Top.edge, Ps2.edge, h]⟩
  core := by
    refine ⟨_, ?_, .settled (Nat.le_refl 5)⟩
    constructor
    all_goals simp [Top.edge, Ps2.edge, Fsm.edge, h, Key.core, Key.start]

namespace Inv

theorem edge (h : Inv l a s) (hr : i.rst = false) (hp : s.kbd.push? i.ps2_data = none) :
    Inv l (a + 1) (s.edge i) := by
  have ⟨_, ha, hph⟩ := h.core
  refine ⟨?_, _, ha.edge hr hp, hph.edge⟩
  rw [Top.edge, hr]
  exact h.rx.edge

theorem edge_push (h : Inv l a s) (hr : i.rst = false) (hp : s.kbd.push? i.ps2_data = some code) :
    Inv (l ++ [code]) 0 (s.edge i) := by
  have ⟨_, ha, hph⟩ := h.core
  have h₂₁ := h.rx.le_of_push hp
  have ⟨hh, hph⟩ := hph.edge_push code (by omega)
  refine ⟨?_, _, ha.edge_push hr hp hh, hph⟩
  rw [Top.edge, hr]
  exact Rx.edge_push hp

end Inv

theorem pushed_succ (hr : ∀ t, (w t).rst = false) : s.pushed w (n + 1) =
    s.pushed w n ++ ((s.run w n).kbd.push? (w n).ps2_data).toList := by
  rw [Top.pushed, List.range_succ, List.filterMap_append, ← Top.pushed]
  congr 1
  cases h : (s.run w n).kbd.push? (w n).ps2_data <;> simp [hr, h]

-- No code is written in the `k` cycles before cycle `n`.
def Quiet (w : Nat → Input) (s : Top) (k n : Nat) : Prop :=
  ∀ t < n, n ≤ t + k → (s.run w t).kbd.push? (w t).ps2_data = none

theorem Quiet.pred {k : Nat} (h : Quiet w s (k + 1) (n + 1)) : Quiet w s k n :=
  fun t ht hn => h t (by omega) (by omega)

theorem inv_run (h : Inv [] 5 s) (hr : ∀ t, (w t).rst = false) :
    ∃ a, Inv (s.pushed w n) a (s.run w n) ∧ ∀ k ≤ 5, Quiet w s k n → k ≤ a := by
  induction n
  case zero => exact ⟨5, h, fun _ hk _ => hk⟩
  case succ n ih =>
    have ⟨a, hi, ha⟩ := ih
    rw [pushed_succ hr]
    cases hp : (s.run w n).kbd.push? (w n).ps2_data
    case none =>
      rw [Option.toList_none, List.append_nil]
      refine ⟨a + 1, hi.edge (hr n) hp, fun k hk hq => ?_⟩
      cases k
      case zero => exact Nat.zero_le _
      case succ k => exact Nat.succ_le_succ <| ha k (by omega) hq.pred
    case some code =>
      refine ⟨0, hi.edge_push (hr n) hp, fun k _ hq => ?_⟩
      cases k
      case zero => exact Nat.le_refl _
      case succ k => simp [hq n (by omega) (by omega)] at hp

-- What the display is meant to show after the strokes.
structure Counted (strokes : List Stroke) (s : Top) : Prop where
  count      : s.count = BitVec.ofNat 8 strokes.length
  seg_data   : ∀ st ∈ strokes.getLast?, s.fsm.seg_data = st.code
  is_pressed : s.fsm.is_pressed = false
  ready      : s.kbd.ready = false

theorem Abs.counted_iff {strokes : List Stroke} (h : Abs s ((codes strokes).foldl Key.press Key.start).core) :
    Counted strokes s ↔ strokes = [] := by
  cases strokes using List.reverseRecOn
  case nil => exact iff_of_true ⟨h.count, nofun, congrArg Fsm.is_pressed h.fsm, h.ready⟩ rfl
  case append_singleton l st =>
    rw [Key.press_strokes] at h
    refine iff_of_false (fun hc => ?_) (by simp)
    exact Bool.false_ne_true <| hc.is_pressed.symm.trans <| congrArg Fsm.is_pressed h.fsm

-- The release code of a stroke is counted as a press, so that the key looks held when all codes have been
-- taken. The receiver itself keeps the codes apart.
theorem strokes_counted_iff {strokes : List Stroke} (h : i.rst = true) (hr : ∀ t, (w t).rst = false)
    (hp : (s.edge i).pushed w n = codes strokes) :
    (Quiet w (s.edge i) 5 n → ((s.edge i).run w n).Settled) ∧
    (((s.edge i).run w n).Settled → (Counted strokes ((s.edge i).run w n) ↔ strokes = [])) := by
  have ⟨a, hi, ha⟩ := inv_run (n := n) (inv_reset (s := s) h) hr
  have ⟨c, hc, hph⟩ := hi.core
  rw [hc.settled_iff, hph.settled_iff]
  refine ⟨ha 5 (Nat.le_refl 5), fun h₅ => ?_⟩
  rw [hph.eq_of_settled h₅, hp] at hc
  exact hc.counted_iff

-- The key A is pressed and released once.

def keyA : Stroke where
  code    := 0x1C
  repeats := 0
  ne_f0   := by decide
  ne_e0   := by decide

def cleared : Top :=
  Top.edge ⟨true, true, true⟩ {
    kbd   := ⟨0, fun _ => 0, 0, 0, false, false, 0, 7⟩
    fsm   := ⟨IDLE, true, false, 0, false⟩
    count := 0
  }

theorem pushed_keyA : cleared.pushed (kbd_sendcode (codes [keyA])) 203 = codes [keyA] := by
  decide +kernel

theorem settled_keyA : (cleared.run (kbd_sendcode (codes [keyA])) 203).Settled where
  empty      := by decide +kernel
  waiting    := by decide +kernel
  nextdata_n := by decide +kernel
  en_count   := by decide +kernel

theorem is_pressed_keyA : (cleared.run (kbd_sendcode (codes [keyA])) 203).fsm.is_pressed = true := by
  decide +kernel

theorem strokes_counted_iff_keyA : ¬Counted [keyA] (cleared.run (kbd_sendcode (codes [keyA])) 203) :=
  fun h => List.cons_ne_nil _ _ <|
    ((strokes_counted_iff rfl (fun _ => rfl) pushed_keyA).right settled_keyA).mp h

theorem strokes_not_counted :
    ¬∀ (s : Top) (i : Input) (w : Nat → Input) (n : Nat) (strokes : List Stroke), i.rst = true →
      (∀ t, (w t).rst = false) → (s.edge i).pushed w n = codes strokes → ((s.edge i).run w n).Settled →
      Counted strokes ((s.edge i).run w n) := by
  intro h
  have hc := h _ _ _ _ _ rfl (fun _ => rfl) pushed_keyA settled_keyA
  exact Bool.false_ne_true <| hc.is_pressed.symm.trans is_pressed_keyA

end Keyboard
