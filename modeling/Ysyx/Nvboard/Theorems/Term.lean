import Ysyx.Nvboard.Term
import Mathlib.Tactic.Common

namespace Nvboard.Term

variable {w h : Nat} {t : Term w h} {y x y' x' : Int} {ch : Byte}

-- The cells of the screen.
structure InRange (w h : Nat) (y x : Int) : Prop where
  line   : 0 ≤ y ∧ y < h
  column : 0 ≤ x ∧ x < w

def charAt? (t : Term w h) (y x : Int) : Option Byte :=
  t.lines[(t.screenY + y).toNat]?.bind fun l => l[x.toNat]?

-- What a cell has to show: the character of its line, and nothing below the last line.
def want (t : Term w h) (y x : Int) : Cell :=
  (t.charAt? y x).elim .blank ch2texture

def AtCursor (t : Term w h) (y x : Int) : Prop :=
  y = t.cursorY - t.screenY ∧ x = t.cursorX

-- A cell is up to date or it is marked.
def Fresh (t : Term w h) (y x : Int) : Prop :=
  t.dirtyChar y x = true ∨ t.screen y x = t.want y x

structure Sound (t : Term w h) : Prop where
  visible : 0 ≤ t.screenY ∧ t.screenY ≤ t.cursorY ∧ t.cursorY < t.screenY + h
  last    : t.cursorY + 1 = t.lines.length
  below   : ∀ y x, InRange w h y x → t.lines.length ≤ t.screenY + y → t.screen y x = .blank
  marks   : ∀ y x, t.dirtyChar y x = true → t.dirtyLine y = true ∧ t.dirtyScreen = true
  ascii   : ∀ l ∈ t.lines, ∀ c ∈ l, c < 128

-- The invariant of a terminal. Only the cell of the cursor may be out of date without a mark.
structure Inv (t : Term w h) : Prop extends Sound t where
  column : 0 ≤ t.cursorX ∧ t.cursorX < w
  fresh  : ∀ y x, InRange w h y x → ¬t.AtCursor y x → t.Fresh y x

theorem Inv.of_fresh (hs : Sound t) (hc : 0 ≤ t.cursorX ∧ t.cursorX < w) (hf : ∀ y x, InRange w h y x → t.Fresh y x) :
    Inv t where
  toSound := hs
  column  := hc
  fresh y x hr _ := hf y x hr

theorem Sound.inRange (hs : Sound t) (hc : 0 ≤ t.cursorX ∧ t.cursorX < w) :
    InRange w h (t.cursorY - t.screenY) t.cursorX where
  line   := by have := hs.visible; omega
  column := hc

section Marks

def mark (t : Term w h) (y x : Int) : Term w h :=
  { t with
    dirtyChar   := fun y' x' => t.dirtyChar y' x' || (y' == y && x' == x)
    dirtyLine   := fun y' => t.dirtyLine y' || y' == y
    dirtyScreen := true }

theorem isCursorOnScreen_eq (hs : Sound t) : t.isCursorOnScreen = true := by
  have := hs.visible
  simp [isCursorOnScreen]
  omega

theorem markCursor_eq (hs : Sound t) (hc : 0 ≤ t.cursorX ∧ t.cursorX < w) :
    t.markCursor = some (t.mark (t.cursorY - t.screenY) t.cursorX) := by
  have hr := hs.inRange hc
  rw [markCursor, if_pos (isCursorOnScreen_eq hs), setDirtyChar, if_pos ⟨hr.line, hr.column⟩]
  rfl

theorem dirtyChar_mark : (t.mark y x).dirtyChar y x = true := by
  simp [mark]

theorem Fresh.mark (hf : t.Fresh y' x') : (t.mark y x).Fresh y' x' := by
  cases hf
  case inl hd => exact .inl <| by simp [Term.mark, hd]
  case inr hs => exact .inr hs

theorem Sound.mark (hs : Sound t) : Sound (t.mark y x) where
  visible := hs.visible
  last    := hs.last
  below   := hs.below
  ascii   := hs.ascii
  marks y' x' hd := by
    simp only [Term.mark, Bool.or_eq_true, Bool.and_eq_true, beq_iff_eq] at hd ⊢
    cases hd
    case inl hd => exact ⟨.inl (hs.marks y' x' hd).left, trivial⟩
    case inr hd => exact ⟨.inr hd.left, trivial⟩

theorem Sound.withX (hs : Sound t) : Sound ({ t with cursorX := x } : Term w h) :=
  ⟨hs.visible, hs.last, hs.below, hs.marks, hs.ascii⟩

-- With its cursor marked, no cell is out of date unnoticed.
theorem Inv.fresh_mark (hi : Inv t) (hr : InRange w h y x) : (t.mark (t.cursorY - t.screenY) t.cursorX).Fresh y x := by
  by_cases hc : t.AtCursor y x
  case pos =>
    rw [hc.left, hc.right]
    exact .inl dirtyChar_mark
  case neg => exact (hi.fresh y x hr hc).mark

end Marks

section Newline

-- A new line below the last one, with the cursor at its begin.
def advance (t : Term w h) : Term w h :=
  { t with cursorX := 0, cursorY := t.cursorY + 1, lines := t.lines ++ [Vector.replicate w 0x20] }

theorem newline_eq (hs : Sound t) : t.newline =
    if t.cursorY + 1 = t.screenY + h then { t.advance with screenY := t.screenY + 1 }.initDirty true
    else t.advance := by
  have hl : t.cursorY + 1 ≥ t.lines.length := by rw [hs.last]
  simp only [newline, if_pos hl]
  rfl

theorem want_of_le (h : t.lines.length ≤ t.screenY + y) : t.want y x = .blank := by
  have hn : t.lines[(t.screenY + y).toNat]? = none := List.getElem?_eq_none (by omega)
  rw [want, charAt?, hn]
  rfl

theorem spaces_blank {k : Nat} : ((Vector.replicate w (0x20 : Byte))[k]?).elim .blank ch2texture = Cell.blank := by
  by_cases hk : k < w
  case pos => rw [Vector.getElem?_eq_getElem hk, Vector.getElem_replicate]; rfl
  case neg => rw [Vector.getElem?_eq_none (Nat.le_of_not_lt hk)]; rfl

theorem spaces_ascii : ∀ c ∈ Vector.replicate w (0x20 : Byte), c < 128 := by
  intro c hc
  rw [(Vector.mem_replicate.mp hc).right]
  decide

theorem want_advance (hs : Sound t) (hr : InRange w h y x) : t.advance.want y x = t.want y x := by
  have hy := hr.line
  have hv := hs.visible
  by_cases hl : t.screenY + y < t.lines.length
  case pos =>
    have ha : (t.lines ++ [Vector.replicate w 0x20])[(t.screenY + y).toNat]? = t.lines[(t.screenY + y).toNat]? :=
      List.getElem?_append_left (by omega)
    rw [want, charAt?, advance, ha]
    rfl
  case neg =>
    rw [want_of_le (by omega : (t.lines.length : Int) ≤ t.screenY + y), want, charAt?, advance]
    rw [List.getElem?_append_right (show t.lines.length ≤ (t.screenY + y).toNat by omega)]
    cases (t.screenY + y).toNat - t.lines.length
    case zero   => exact spaces_blank
    case succ k => rfl

theorem Sound.newline (hs : Sound t) (hf : ∀ y x, InRange w h y x → t.Fresh y x) (hw : 0 < w) : Inv t.newline := by
  have hv := hs.visible
  have hl := hs.last
  have ha : ∀ l ∈ t.advance.lines, ∀ c ∈ l, c < 128 := by
    intro l hl c hc
    cases List.mem_append.mp hl
    case inl hl => exact hs.ascii l hl c hc
    case inr hl =>
      rw [List.mem_singleton.mp hl] at hc
      exact spaces_ascii c hc
  rw [newline_eq hs]
  by_cases hb : t.cursorY + 1 = t.screenY + h
  case pos =>
    rw [if_pos hb]
    refine .of_fresh ⟨?_, ?_, ?_, ?_, ha⟩ ⟨Int.le_refl 0, Int.ofNat_lt.mpr hw⟩ fun y x _ => .inl rfl
    case _ => simp [initDirty, advance]; omega
    case _ => simp [initDirty, advance]; omega
    case _ =>
      intro y x hr hle
      have := hr.line
      simp [initDirty, advance] at hle
      omega
    case _ => exact fun _ _ _ => ⟨rfl, rfl⟩
  case neg =>
    rw [if_neg hb]
    refine .of_fresh ⟨?_, ?_, ?_, hs.marks, ha⟩ ⟨Int.le_refl 0, Int.ofNat_lt.mpr hw⟩ fun y x hr => ?_
    case _ => simp [advance]; omega
    case _ => simp [advance]; omega
    case _ =>
      intro y x hr hle
      refine hs.below y x hr ?_
      simp [advance] at hle
      omega
    case _ =>
      cases hf y x hr
      case inl hd => exact .inl hd
      case inr he => exact .inr <| he.trans (want_advance hs hr).symm

end Newline

section Characters

-- `putChar` in the line of the cursor.
theorem exists_putChar (hs : Sound t) (hx : 0 ≤ x ∧ x < w) (hc : ch < 128) : ∃ t', t.putChar t.cursorY x ch = some t' ∧
    Sound t' ∧ t'.cursorX = t.cursorX ∧ t'.cursorY = t.cursorY ∧ t'.screenY = t.screenY ∧
    t'.dirtyChar = t.dirtyChar ∧
    ∀ y x', InRange w h y x' → ¬(y = t.cursorY - t.screenY ∧ x' = x) → t.Fresh y x' → t'.Fresh y x' := by
  have hv := hs.visible
  have hl := hs.last
  have hi : t.cursorY.toNat < t.lines.length := by omega
  refine ⟨{ t with lines := t.lines.set t.cursorY.toNat ((t.lines.get ⟨_, hi⟩).set x.toNat ch (by omega)) }, ?_,
    ⟨hv, by simpa using hl, by simpa using hs.below, hs.marks, ?_⟩, rfl, rfl, rfl, rfl, ?_⟩
  case refine_1 =>
    rw [putChar, dif_pos ⟨by omega, hx⟩, List.getElem?_eq_getElem hi]
    rfl
  case refine_2 =>
    intro l hl c hm
    cases List.mem_or_eq_of_mem_set hl
    case inl hl => exact hs.ascii l hl c hm
    case inr hl =>
      rw [hl] at hm
      cases Vector.mem_or_eq_of_mem_set hm
      case inl hm => exact hs.ascii _ (List.get_mem ..) c hm
      case inr hm => rwa [hm]
  case refine_3 =>
    intro y x' hr hn hf
    have hy := hr.line
    have hx' := hr.column
    cases hf
    case inl hd => exact .inl hd
    case inr he =>
      refine .inr <| he.trans ?_
      simp only [want, charAt?]
      congr 1
      by_cases hj : t.cursorY.toNat = (t.screenY + y).toNat
      case neg => rw [List.getElem?_set_ne hj]
      case pos =>
        rw [← hj, List.getElem?_set_self hi, List.getElem?_eq_getElem hi, Option.bind_some, Option.bind_some,
          Vector.getElem?_set_ne _ (by omega)]
        rfl

end Characters

section Operations

theorem exists_erase (hs : Sound t) (hc : 0 ≤ t.cursorX ∧ t.cursorX < w)
    (hf : ∀ y x, InRange w h y x → t.Fresh y x) : ∃ t', t.erase = some t' ∧ Inv t' := by
  have ⟨t₁, ht, hs₁, hx, hy, hsy, _, hf₁⟩ := exists_putChar hs hc (by decide : (0x20 : Byte) < 128)
  have hc₁ : 0 ≤ t₁.cursorX ∧ t₁.cursorX < w := by rwa [hx]
  have hi : Inv t₁ := {
    toSound := hs₁
    column  := hc₁
    fresh y x hr hn := hf₁ y x hr (by rwa [AtCursor, hx, hy, hsy] at hn) (hf y x hr) }
  refine ⟨_, by rw [erase, ht]; exact markCursor_eq hs₁ hc₁, .of_fresh hs₁.mark hc₁ fun y x hr => hi.fresh_mark hr⟩

theorem Inv.backspace (hi : Inv t) (hf : ∀ y x, InRange w h y x → t.Fresh y x) :
    ∃ t', t.backspace false = some t' ∧ Inv t' := by
  rw [Term.backspace]
  by_cases h0 : t.cursorX = 0
  case pos => exact ⟨t, by rw [if_pos h0]; rfl, hi⟩
  case neg =>
    have hc := hi.column
    have hm := markCursor_eq hi.toSound hc
    rw [if_neg h0, hm]
    have hx : 0 ≤ t.cursorX - 1 ∧ t.cursorX - 1 < w := by omega
    exact exists_erase (t := ({ t.mark _ _ with cursorX := t.cursorX - 1 } : Term w h)) hi.mark.withX hx
      fun y x hr => (hf y x hr).mark

-- A character overwrites the marked cell of the cursor, which moves on.
theorem Inv.putChar (hi : Inv t) (hf : ∀ y x, InRange w h y x → t.Fresh y x)
    (hd : t.dirtyChar (t.cursorY - t.screenY) t.cursorX = true) (hw : 0 < w) (hc : ch < 128) :
    ∃ t', t.putChar t.cursorY t.cursorX ch = some t' ∧
      Inv (if t'.cursorX + 1 = (w : Int) then ({ t' with cursorX := t'.cursorX + 1 } : Term w h).newline
        else { t' with cursorX := t'.cursorX + 1 }) := by
  have hcol := hi.column
  have ⟨t', ht, hs, hx, _, _, hd', hn⟩ := exists_putChar hi.toSound hcol hc
  have hf' y x (hr : InRange w h y x) : t'.Fresh y x := by
    by_cases h : y = t.cursorY - t.screenY ∧ x = t.cursorX
    case pos => exact .inl <| by rw [hd', h.left, h.right, hd]
    case neg => exact hn y x hr h (hf y x hr)
  refine ⟨t', ht, ?_⟩
  split
  case isTrue => exact hs.withX.newline hf' hw
  case isFalse hne =>
    have hx' : 0 ≤ t'.cursorX + 1 ∧ t'.cursorX + 1 < w := by omega
    exact .of_fresh hs.withX hx' hf'

theorem Inv.feedCh (hi : Inv t) (hw : 0 < w) (hc : ch < 128) : ∃ t', t.feedCh ch = some t' ∧ Inv t' := by
  have hm := markCursor_eq hi.toSound hi.column
  have hl := hi.last
  generalize ht : t.mark (t.cursorY - t.screenY) t.cursorX = t₁ at hm
  have hf : ∀ y x, InRange w h y x → t₁.Fresh y x := fun y x hr => ht ▸ hi.fresh_mark hr
  have hs : Sound t₁ := ht ▸ hi.toSound.mark
  have hcol : 0 ≤ t₁.cursorX ∧ t₁.cursorX < w := ht ▸ hi.column
  have hi₁ : Inv t₁ := .of_fresh hs hcol hf
  have hd : t₁.dirtyChar (t₁.cursorY - t₁.screenY) t₁.cursorX = true := ht ▸ dirtyChar_mark
  have hl₁ : ¬¬t₁.cursorY < t₁.lines.length := by
    have := hs.last
    omega
  rw [Term.feedCh, if_neg (not_not.mpr hc), hm, Option.bind_eq_bind, Option.bind_some]
  simp only
  rw [if_neg hl₁]
  split
  case isTrue => exact ⟨_, rfl, hs.newline hf hw⟩
  case isFalse =>
    split
    case isTrue => exact ⟨_, rfl, .of_fresh hs.withX ⟨Int.le_refl 0, Int.ofNat_lt.mpr hw⟩ hf⟩
    case isFalse =>
      split
      case isTrue => exact hi₁.backspace hf
      case isFalse =>
        have ⟨t₂, ht₂, hi₂⟩ := hi₁.putChar hf hd hw hc
        exact ⟨_, by rw [ht₂]; rfl, hi₂⟩

theorem Inv.clear (hi : Inv t) (hw : 0 < w) (hh : 0 < h) : Inv t.clear := by
  have hl := hi.last
  have hv := hi.visible
  obtain ⟨l, ls, hls⟩ : ∃ l ls, t.lines = l :: ls := List.exists_cons_of_length_pos (by omega)
  have hn : t.clear.lines = [Vector.replicate w 0x20] := by simp [Term.clear, initDirty, clearScreen, hls]
  have hb y x : t.clear.want y x = .blank := by
    rw [want, charAt?, hn]
    cases (t.clear.screenY + y).toNat
    case zero => exact spaces_blank
    case succ => rfl
  refine .of_fresh ⟨⟨Int.le_refl 0, Int.le_refl 0, ?_⟩, by rw [hn]; rfl, fun _ _ _ _ => rfl, nofun, ?_⟩
    ⟨Int.le_refl 0, Int.ofNat_lt.mpr hw⟩ fun y x _ => .inr (hb y x).symm
  case _ => exact (Int.zero_add (h : Int)).symm ▸ Int.ofNat_lt.mpr hh
  case _ =>
    rw [hn]
    exact List.forall_mem_singleton.mpr spaces_ascii

-- Drawing the cursor changes its cell only.
theorem drawCursor_eq (hs : Sound t) : ∃ c, t.drawCursor = t.draw (t.cursorY - t.screenY) t.cursorX c :=
  ⟨_, if_pos (isCursorOnScreen_eq hs)⟩

theorem Inv.draw (hi : Inv t) {c : Cell} : Inv (t.draw (t.cursorY - t.screenY) t.cursorX c) := by
  have hl := hi.last
  refine ⟨⟨hi.visible, hi.last, fun y x hr hb => ?_, hi.marks, hi.ascii⟩, hi.column, fun y x hr hn => ?_⟩
  case _ =>
    rw [Term.draw]
    simp only
    rw [if_neg fun h => ?_]
    case _ => exact hi.below y x hr hb
    have hb : (t.lines.length : Int) ≤ t.screenY + y := hb
    omega
  case _ =>
    cases hi.fresh y x hr hn
    case inl hd => exact .inl hd
    case inr he => exact .inr <| (if_neg hn).trans he

theorem Inv.setFocus {v : Bool} (hi : Inv t) : Inv (t.setFocus v) := by
  have hi' : Inv ({ t with isFocus := v } : Term w h) :=
    ⟨⟨hi.visible, hi.last, hi.below, hi.marks, hi.ascii⟩, hi.column, hi.fresh⟩
  have ⟨c, hc⟩ := drawCursor_eq hi'.toSound
  unfold Term.setFocus
  simp only
  split
  case isTrue => rw [hc]; exact hi'.draw
  case isFalse => exact hi'

end Operations

section Redraw

-- `t₂` differs from `t₁` only in cells that show now what they have to.
structure Redrawn (t₁ t₂ : Term w h) : Prop where
  frame : t₂ = { t₁ with screen := t₂.screen }
  cells : ∀ y x, t₂.screen y x = t₁.screen y x ∨ t₂.screen y x = t₁.want y x

variable {t₁ t₂ t₃ : Term w h}

theorem Redrawn.refl : Redrawn t t :=
  ⟨rfl, fun _ _ => .inl rfl⟩

theorem Redrawn.lines (hr : Redrawn t₁ t₂) : t₂.lines = t₁.lines := by
  rw [hr.frame]

theorem Redrawn.screenY (hr : Redrawn t₁ t₂) : t₂.screenY = t₁.screenY := by
  rw [hr.frame]

theorem Redrawn.dirtyLine (hr : Redrawn t₁ t₂) : t₂.dirtyLine = t₁.dirtyLine := by
  rw [hr.frame]

theorem Redrawn.dirtyChar (hr : Redrawn t₁ t₂) : t₂.dirtyChar = t₁.dirtyChar := by
  rw [hr.frame]

theorem Redrawn.want (hr : Redrawn t₁ t₂) : t₂.want y x = t₁.want y x := by
  rw [hr.frame]
  rfl

theorem Redrawn.trans (h₁ : Redrawn t₁ t₂) (h₂ : Redrawn t₂ t₃) : Redrawn t₁ t₃ where
  frame := by
    have h := h₂.frame
    rw [h₁.frame] at h
    exact h
  cells y x := by
    cases h₂.cells y x
    case inl h => rw [h]; exact h₁.cells y x
    case inr h => exact .inr <| h.trans h₁.want

-- What is up to date stays so.
theorem Redrawn.keep (hr : Redrawn t₁ t₂) (h : t₁.screen y x = t₁.want y x) : t₂.screen y x = t₁.want y x := by
  cases hr.cells y x
  case inl he => rw [he, h]
  case inr he => exact he

theorem draw_self {c : Cell} : (t.draw y x c).screen y x = c :=
  if_pos ⟨rfl, rfl⟩

theorem draw_ne {c : Cell} (h : ¬(y' = y ∧ x' = x)) : (t.draw y x c).screen y' x' = t.screen y' x' :=
  if_neg h

theorem Redrawn.draw : Redrawn t (t.draw y x (t.want y x)) where
  frame := rfl
  cells y' x' := by
    by_cases h : y' = y ∧ x' = x
    case pos => exact .inr <| by rw [h.left, h.right, draw_self]
    case neg => exact .inl <| draw_ne h

theorem want_eq {l : Vector Byte w} {x : Fin w} (hl : t.lines[(t.screenY + y).toNat]? = some l) :
    t.want y x.val = ch2texture (l.get x) := by
  simp [want, charAt?, hl]
  rfl

theorem updateLine_redrawn {l : Vector Byte w} (hl : t.lines[(t.screenY + y).toNat]? = some l) (xs : List (Fin w)) :
    let t' := xs.foldl (fun t x => if t.dirtyChar y x.val then t.draw y x.val (ch2texture (l.get x)) else t) t
    Redrawn t t' ∧ ∀ x ∈ xs, t.dirtyChar y x.val = true → t'.screen y x.val = t.want y x.val := by
  induction xs generalizing t
  case nil => exact ⟨.refl, nofun⟩
  case cons x xs ih =>
    generalize ht : (if t.dirtyChar y x.val then t.draw y x.val (ch2texture (l.get x)) else t) = t₁
    have h₁ : Redrawn t t₁ := by
      rw [← ht, ← want_eq hl]
      split
      case isTrue  => exact .draw
      case isFalse => exact .refl
    have hl₁ : t₁.lines[(t₁.screenY + y).toNat]? = some l := by rwa [h₁.screenY, h₁.lines]
    have ⟨h₂, hx⟩ := ih hl₁
    rw [List.foldl_cons, ht]
    refine ⟨h₁.trans h₂, fun x' hm hd' => ?_⟩
    rw [← h₁.want]
    cases List.mem_cons.mp hm
    case inr hm => exact hx x' hm (by rwa [h₁.dirtyChar])
    case inl he =>
      refine h₂.keep ?_
      rw [h₁.want, he, want_eq hl, ← ht, if_pos (he ▸ hd'), draw_self]

-- The lines of the screen from `y` on. There are none left where the loop breaks.
theorem updateLines_redrawn {n : Nat} (hy : 0 ≤ t.screenY + y) : Redrawn t (updateLines n y t) ∧
    ∀ y' x : Int, (y ≤ y' ∧ y' < y + n) → (0 ≤ x ∧ x < w) → t.screenY + y' < t.lines.length → t.dirtyLine y' = true →
      t.dirtyChar y' x = true → (updateLines n y t).screen y' x = t.want y' x := by
  induction n generalizing t y
  case zero => exact ⟨.refl, fun _ _ hr => by omega⟩
  case succ n ih =>
    rw [updateLines]
    split
    case h_1 hn =>
      have hle := List.getElem?_eq_none_iff.mp hn
      exact ⟨.refl, fun _ _ hr _ hl => by omega⟩
    case h_2 l hl =>
      split
      case isFalse hd =>
        have ⟨hr, hn⟩ := ih (t := t) (y := y + 1) (by omega)
        refine ⟨hr, fun y' x hy' hx hl' hd' => ?_⟩
        have hne : y' ≠ y := fun he => hd (he ▸ hd')
        exact hn y' x (by omega) hx hl' hd'
      case isTrue hd =>
        have ⟨h₁, hc⟩ := updateLine_redrawn hl (List.finRange w)
        rw [← updateLine] at h₁ hc
        have ⟨hr, hn⟩ := ih (t := t.updateLine y l) (y := y + 1) (by rw [h₁.screenY]; omega)
        refine ⟨h₁.trans hr, fun y' x hy' hx hl' hd' hd'' => ?_⟩
        rw [← h₁.want]
        by_cases he : y' = y
        case pos =>
          obtain ⟨x, rfl⟩ := Int.eq_ofNat_of_zero_le hx.left
          refine hr.keep ?_
          rw [he, h₁.want]
          exact hc ⟨x, Int.ofNat_lt.mp hx.right⟩ (List.mem_finRange _) (he ▸ hd'')
        case neg =>
          exact hn y' x (by omega) hx (by rwa [h₁.screenY, h₁.lines]) (by rwa [h₁.dirtyLine]) (by rwa [h₁.dirtyChar])

theorem Sound.redrawn (hs : Sound t₁) (hr : Redrawn t₁ t₂) : Sound t₂ := by
  have hb : ∀ y x, InRange w h y x → t₁.lines.length ≤ t₁.screenY + y → t₂.screen y x = .blank := by
    intro y x hi hl
    rw [← want_of_le hl]
    exact hr.keep <| (hs.below y x hi hl).trans (want_of_le hl).symm
  rw [hr.frame]
  exact ⟨hs.visible, hs.last, hb, hs.marks, hs.ascii⟩

-- Every cell of the screen shows what it has to, where the cursor does not hide it.
def Clean (t : Term w h) : Prop :=
  ∀ y x, InRange w h y x → ¬t.AtCursor y x → t.screen y x = t.want y x

theorem Inv.clean_of_not_dirty (hi : Inv t) (hd : t.dirtyScreen = false) : Clean t := by
  intro y x hr hn
  cases hi.fresh y x hr hn
  case inr he => exact he
  case inl hm => simp [(hi.marks y x hm).right] at hd

theorem Inv.clean_updateLines (hi : Inv t) : Clean (updateLines h 0 t) := by
  have hv := hi.visible
  have ⟨hr, hd⟩ := updateLines_redrawn (n := h) (show 0 ≤ t.screenY + 0 by omega)
  intro y x hxy hn
  have hn' : ¬t.AtCursor y x := by rwa [hr.frame] at hn
  rw [hr.want]
  cases hi.fresh y x hxy hn'
  case inr he => exact hr.keep he
  case inl hm =>
    by_cases hl : t.screenY + y < t.lines.length
    case pos =>
      have := hxy.line
      exact hd y x (by omega) hxy.column hl (hi.marks y x hm).left hm
    case neg =>
      have hl := Int.not_lt.mp hl
      exact hr.keep <| (hi.below y x hxy hl).trans (want_of_le hl).symm

theorem Clean.draw {c : Cell} (hc : Clean t) : Clean (t.draw (t.cursorY - t.screenY) t.cursorX c) :=
  fun y x hr hn => (draw_ne hn).trans (hc y x hr hn)

theorem Inv.of_clean (hs : Sound t) (hx : 0 ≤ t.cursorX ∧ t.cursorX < w) (hc : Clean t) : Inv (t.initDirty false) where
  toSound := ⟨hs.visible, hs.last, hs.below, nofun, hs.ascii⟩
  column  := hx
  fresh y x hr hn := .inr <| hc y x hr hn

theorem Inv.updateGui (hi : Inv t) : Inv t.updateGui ∧
    ∀ y x, InRange w h y x → ¬t.AtCursor y x → t.updateGui.screen y x = t.want y x := by
  cases hd : t.dirtyScreen
  case false =>
    rw [Term.updateGui, hd]
    exact ⟨hi, hi.clean_of_not_dirty hd⟩
  case true =>
    have hv := hi.visible
    have hr : Redrawn t (updateLines h 0 t) := (updateLines_redrawn (by omega)).left
    have hi' : Inv (updateLines h 0 t) := {
      toSound := hi.toSound.redrawn hr
      column  := by rw [hr.frame]; exact hi.column
      fresh y x hxy hn := .inr <| hi.clean_updateLines y x hxy hn }
    have ⟨c, hc⟩ := drawCursor_eq hi'.toSound
    have hw := hi.clean_updateLines.draw (c := c)
    rw [Term.updateGui, hd, hc]
    refine ⟨.of_clean hi'.draw.toSound hi'.column hw, fun y x hxy hn => ?_⟩
    have hn' : ¬(updateLines h 0 t).AtCursor y x := by rwa [hr.frame]
    exact (hw y x hxy hn').trans hr.want

end Redraw

section Runs

-- All is blank but for the cursor.
theorem powerOn_inv (hw : 0 < w) (hh : 0 < h) : Inv (powerOn w h) := by
  rw [powerOn]
  generalize ht : Term.clearScreen (Term.addLine (w := w) (h := h) _) = t
  have hx : 0 ≤ t.cursorX ∧ t.cursorX < w := ht ▸ ⟨Int.le_refl 0, Int.ofNat_lt.mpr hw⟩
  have hl : t.lines = [Vector.replicate w 0x20] := ht ▸ rfl
  have hs : Sound t := by
    refine ⟨?_, by rw [hl, ← ht]; rfl, fun _ _ _ _ => ht ▸ rfl, ht ▸ nofun, ?_⟩
    case _ => exact ht ▸ ⟨Int.le_refl 0, Int.le_refl 0, (Int.zero_add (h : Int)).symm ▸ Int.ofNat_lt.mpr hh⟩
    case _ => rw [hl]; exact List.forall_mem_singleton.mpr spaces_ascii
  have hc : Clean t := by
    intro y x _ _
    rw [want, charAt?, hl, ← ht]
    symm
    cases (_ : Int).toNat
    case zero => exact spaces_blank
    case succ => rfl
  have ⟨c, hd⟩ := drawCursor_eq hs
  have hi : Inv t := ⟨hs, hx, fun y x hr hn => .inr <| hc y x hr hn⟩
  rw [hd]
  exact .of_clean hi.draw.toSound hx hc.draw

-- One call never fails and keeps the invariant.
theorem Inv.step (hi : Inv t) (hw : 0 < w) (hh : 0 < h) (op : Op) : ∃ t', t.step op = some t' ∧ Inv t' := by
  cases op
  case feedCh ch  => exact hi.feedCh hw ch.property
  case clear      => exact ⟨_, rfl, hi.clear hw hh⟩
  case setFocus v => exact ⟨_, rfl, hi.setFocus⟩
  case updateGui  => exact ⟨_, rfl, hi.updateGui.left⟩

theorem Inv.run (hi : Inv t) (hw : 0 < w) (hh : 0 < h) (ops : List Op) : ∃ t', t.run ops = some t' ∧ Inv t' := by
  induction ops generalizing t
  case nil => exact ⟨t, rfl, hi⟩
  case cons op ops ih =>
    have ⟨t₁, h₁, hi₁⟩ := hi.step hw hh op
    have ⟨t₂, h₂, hi₂⟩ := ih hi₁
    exact ⟨t₂, by rw [Term.run, List.foldlM_cons, h₁]; exact h₂, hi₂⟩

theorem Inv.redraw (hi : Inv t) (hr : InRange w h y x) (hn : ¬t.AtCursor y x) : t.redraw.screen y x = t.want y x := by
  have hi' : Inv (t.clearScreen.initDirty true) :=
    .of_fresh ⟨hi.visible, hi.last, fun _ _ _ _ => rfl, fun _ _ _ => ⟨rfl, rfl⟩, hi.ascii⟩ hi.column
      fun _ _ _ => .inl rfl
  exact hi'.updateGui.right y x hr hn

-- Whatever the board has called on its terminal, no assertion has failed and no index has been out of range, the cursor
-- is on the screen, and an update leaves the same to be seen around it as drawing all from scratch.
theorem incremental_redraw (hw : 0 < w) (hh : 0 < h) (ops : List Op) : ∃ t, (powerOn w h).run ops = some t ∧
    (0 ≤ t.cursorX ∧ t.cursorX < w) ∧
    (t.screenY ≤ t.cursorY ∧ t.cursorY < t.screenY + h) ∧
    t.cursorY < t.lines.length ∧
    ∀ y x, InRange w h y x → ¬t.AtCursor y x →
      t.updateGui.screen y x = t.want y x ∧ t.updateGui.screen y x = t.redraw.screen y x := by
  have ⟨t, ht, hi⟩ := (powerOn_inv hw hh).run hw hh ops
  have hl := hi.last
  refine ⟨t, ht, hi.column, hi.visible.right, by omega, fun y x hr hn => ?_⟩
  have hu := hi.updateGui.right y x hr hn
  exact ⟨hu, hu.trans (hi.redraw hr hn).symm⟩

-- The terminal of the UART, to which a character and a carriage return have been sent.
theorem incremental_redraw_uart : ∃ t,
    (powerOn 64 30).run [.feedCh ⟨0x41, by decide⟩, .updateGui, .feedCh ⟨0x0d, by decide⟩] = some t ∧
    (0 ≤ t.cursorX ∧ t.cursorX < (64 : Nat)) ∧
    (t.screenY ≤ t.cursorY ∧ t.cursorY < t.screenY + (30 : Nat)) ∧
    t.cursorY < t.lines.length ∧
    ∀ y x, InRange 64 30 y x → ¬t.AtCursor y x →
      t.updateGui.screen y x = t.want y x ∧ t.updateGui.screen y x = t.redraw.screen y x :=
  incremental_redraw (by decide) (by decide) _

end Runs

end Nvboard.Term
