import Ysyx.Bytes.LittleEndian

-- The terminal of the board.

namespace Nvboard

-- What is drawn into a cell.
inductive Cell
  | glyph (ch : Byte)
  | cursor
  | focusCursor
  deriving DecidableEq

-- The glyph of a space, which has the colour that the screen is cleared with.
def Cell.blank : Cell :=
  .glyph 0x20

-- The assertion `ch < 128` is left to the callers.
def ch2texture (ch : Byte) : Cell :=
  .glyph (if ch = 0 then 0x20 else ch)

-- A terminal of `h` lines with `w` characters each. Lines and columns of the screen are counted from 0, and `screen`
-- is what is to be seen of them.
structure Term (w h : Nat) where
  lines           : List (Vector Byte w)
  cursorX         : Int
  cursorY         : Int
  isCursorVisible : Bool
  isFocus         : Bool
  screenY         : Int
  dirtyScreen     : Bool
  dirtyLine       : Int → Bool
  dirtyChar       : Int → Int → Bool
  screen          : Int → Int → Cell

namespace Term

variable {w h : Nat} (t : Term w h)

def initDirty (val : Bool) : Term w h :=
  { t with dirtyScreen := val, dirtyLine := fun _ => val, dirtyChar := fun _ _ => val }

def clearScreen : Term w h :=
  { t with screen := fun _ _ => .blank }

def isCursorOnScreen : Bool :=
  t.cursorY ≥ t.screenY && t.cursorY < t.screenY + h

def draw (y x : Int) (c : Cell) : Term w h :=
  { t with screen := fun y' x' => if y' = y ∧ x' = x then c else t.screen y' x' }

def drawCursor : Term w h :=
  if t.isCursorOnScreen then
    t.draw (t.cursorY - t.screenY) t.cursorX <|
      if t.isCursorVisible then if t.isFocus then .focusCursor else .cursor else ch2texture 0x20
  else
    t

-- There is no result where the indices are out of range.
def setDirtyChar (y x : Int) : Option (Term w h) :=
  if (0 ≤ y ∧ y < h) ∧ 0 ≤ x ∧ x < w then
    some { t with
      dirtyChar   := fun y' x' => t.dirtyChar y' x' || (y' == y && x' == x)
      dirtyLine   := fun y' => t.dirtyLine y' || y' == y
      dirtyScreen := true }
  else
    none

def addLine : Term w h :=
  { t with lines := t.lines ++ [Vector.replicate w 0x20] }

def newline : Term w h :=
  let t := { t with cursorX := 0, cursorY := t.cursorY + 1 }
  let t := if t.cursorY ≥ t.lines.length then t.addLine else t
  if t.cursorY = t.screenY + (h : Int) then { t with screenY := t.screenY + 1 }.initDirty true else t

def «return» : Term w h :=
  { t with cursorX := 0 }

-- `lines[y][x] = ch`
def putChar (y x : Int) (ch : Byte) : Option (Term w h) :=
  if hx : 0 ≤ y ∧ 0 ≤ x ∧ x < w then do
    let l ← t.lines[y.toNat]?
    return { t with lines := t.lines.set y.toNat (l.set x.toNat ch (by omega)) }
  else
    none

def markCursor : Option (Term w h) :=
  if t.isCursorOnScreen then t.setDirtyChar (t.cursorY - t.screenY) t.cursorX else some t

-- The cursor moves back and overwrites with a space what it finds there.
def erase : Option (Term w h) := do
  let t ← t.putChar t.cursorY t.cursorX 0x20
  t.markCursor

def backspace (isInput : Bool) : Option (Term w h) := do
  if t.cursorX = 0 then
    if !isInput then return t
    if t.cursorY = 0 then return t
    let t := { t with lines := t.lines.eraseIdx t.cursorY.toNat, cursorY := t.cursorY - 1, cursorX := w - 1 }
    let t := if t.cursorY < t.screenY then { t with screenY := t.screenY - 1 }.initDirty true else t
    t.erase
  else
    let t ← t.markCursor
    { t with cursorX := t.cursorX - 1 }.erase

def feedCh (ch : Byte) : Option (Term w h) := do
  if ¬ch < 128 then none
  let t ← t.markCursor
  let y := t.cursorY
  if ¬y < t.lines.length then none
  if ch = 0x0a then return t.newline
  else if ch = 0x0d then return t.return
  else if ch = 0x08 then t.backspace false
  else
    let t ← t.putChar y t.cursorX ch
    let t := { t with cursorX := t.cursorX + 1 }
    return if t.cursorX = (w : Int) then t.newline else t

def clear : Term w h :=
  let t : Term w h := { t with lines := (t.lines.take 1).map fun _ => Vector.replicate w 0x20 }
  let t := { t with cursorX := 0, cursorY := 0, screenY := 0 }
  t.clearScreen.initDirty false

def setFocus (v : Bool) : Term w h :=
  let updateCursorGui := t.isFocus ^^ v
  let t := { t with isFocus := v }
  if updateCursorGui then t.drawCursor else t

-- The loop over the characters `l` of line `y` of the screen.
def updateLine (y : Int) (l : Vector Byte w) : Term w h :=
  (List.finRange w).foldl (fun t x => if t.dirtyChar y x.val then t.draw y x.val (ch2texture (l.get x)) else t) t

-- The loop over the lines of the screen from `y` on, of which `n` are left.
def updateLines (n : Nat) (y : Int) (t : Term w h) : Term w h :=
  match n with
  | 0     => t
  | n + 1 =>
    match t.lines[(t.screenY + y).toNat]? with
    | none   => t
    | some l => if t.dirtyLine y then updateLines n (y + 1) (t.updateLine y l) else updateLines n (y + 1) t

def updateGui : Term w h :=
  if !t.dirtyScreen then t else (updateLines h 0 t).drawCursor.initDirty false

-- `Term(r, x, y, w, h)`, where `w` and `h` have been divided by the size of a character.
def powerOn (w h : Nat) : Term w h :=
  let t : Term w h := {
    lines           := []
    cursorX         := 0
    cursorY         := 0
    isCursorVisible := true
    isFocus         := false
    screenY         := 0
    dirtyScreen     := false
    dirtyLine       := fun _ => false
    dirtyChar       := fun _ _ => false
    screen          := fun _ _ => .blank }
  t.addLine.clearScreen.drawCursor.initDirty false

-- What the board calls on its terminal. It feeds characters for which the assertion of `feedCh` holds.
inductive Op
  | feedCh (ch : { ch : Byte // ch < 128 })
  | clear
  | setFocus (v : Bool)
  | updateGui

def step : Op → Option (Term w h)
  | .feedCh ch  => t.feedCh ch
  | .clear      => some t.clear
  | .setFocus v => some (t.setFocus v)
  | .updateGui  => some t.updateGui

def run (ops : List Op) : Option (Term w h) :=
  ops.foldlM step t

-- Every line and character of a cleared screen is drawn again.
def redraw : Term w h :=
  (t.clearScreen.initDirty true).updateGui

end Term

end Nvboard
