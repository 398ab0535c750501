import Ysyx.Bytes.LittleEndian

-- Byte files with a position. Accesses are complete, or short at the end of the file.

-- `data` is meaningful below `size`.
structure ByteFile where
  size : Nat
  data : Nat → Byte
  pos  : Nat

namespace ByteFile

variable {f : ByteFile} {buf : Nat → Byte} {n i j : Nat}

-- What a byte is. Zeros are behind the end.
def byte (f : ByteFile) (j : Nat) : Byte :=
  if j < f.size then f.data j else 0

-- From the start of the file. A negative offset is refused.
def fseek (f : ByteFile) (offset : Int) : ByteFile :=
  if offset < 0 then f else { f with pos := offset.toNat }

-- How many of `n` bytes are there.
def available (f : ByteFile) (n : Nat) : Nat :=
  min n (f.size - f.pos)

-- One item of `n` bytes. The first result is the number of complete items.

def fread (f : ByteFile) (buf : Nat → Byte) (n : Nat) : Nat × (Nat → Byte) × ByteFile :=
  let k := f.available n
  (if n ≠ 0 ∧ k = n then 1 else 0, fun i => if i < k then f.data (f.pos + i) else buf i, { f with pos := f.pos + k })

def fwrite (f : ByteFile) (buf : Nat → Byte) (n : Nat) : Nat × ByteFile :=
  if n = 0 then (0, f)
  else (1, {
    size := max f.size (f.pos + n)
    data := fun j => if f.pos ≤ j ∧ j < f.pos + n then buf (j - f.pos) else f.byte j
    pos  := f.pos + n })

theorem fread_complete (hn : n ≠ 0) (h : f.pos + n ≤ f.size) : (f.fread buf n).fst = 1 :=
  if_pos ⟨hn, Nat.min_eq_left <| Nat.le_sub_of_add_le <| Nat.add_comm n _ ▸ h⟩

theorem fread_short (h : f.size < f.pos + n) : (f.fread buf n).fst = 0 := by
  refine if_neg fun ⟨hn, he⟩ => ?_
  rw [available] at he
  omega

theorem fread_byte (h : f.pos + n ≤ f.size) (hi : i < n) : (f.fread buf n).snd.fst i = f.byte (f.pos + i) := by
  have hk : f.available n = n := Nat.min_eq_left <| by omega
  have hs : f.pos + i < f.size := by omega
  simp only [fread, byte, hk, hi, hs, if_true]

theorem byte_fread : (f.fread buf n).snd.snd.byte j = f.byte j := (rfl)

theorem size_fread : (f.fread buf n).snd.snd.size = f.size := (rfl)

theorem fwrite_complete (hn : n ≠ 0) : (f.fwrite buf n).fst = 1 := by
  rw [fwrite, if_neg hn]

theorem size_fwrite (hn : n ≠ 0) : (f.fwrite buf n).snd.size = max f.size (f.pos + n) := by
  rw [fwrite, if_neg hn]

-- The bytes that are written, and the others stay.
theorem byte_fwrite (hn : n ≠ 0) : (f.fwrite buf n).snd.byte j =
    if f.pos ≤ j ∧ j < f.pos + n then buf (j - f.pos) else f.byte j := by
  rw [fwrite, if_neg hn]
  simp only [byte]
  by_cases hj : f.pos ≤ j ∧ j < f.pos + n
  case pos =>
    simp only [if_pos hj]
    exact if_pos <| by omega
  case neg =>
    simp only [if_neg hj]
    split
    case isTrue => rfl
    case isFalse => exact (if_neg <| by omega).symm

end ByteFile
