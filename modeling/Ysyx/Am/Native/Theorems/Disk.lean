import Ysyx.Am.Native.Disk
import Ysyx.Bytes.Overlay

-- The native disk serves the requests that it advertises, except for reads of an incomplete last block.

namespace Am.Native.Disk

open Overlay (overlays)

variable {s s' : State} {f image : ByteFile} {io : Io} {ios : List Io} {n : Nat} {buf : Nat → Byte}

def State.byte (s : State) (j : Nat) : Byte :=
  match s.fp with
  | none   => 0
  | some f => f.byte j

namespace Io

-- The bytes that a request is about.

def start (io : Io) : Nat :=
  (io.blkno * BLKSZ).toNat

def length (io : Io) : Nat :=
  (io.blkcnt * BLKSZ).toNat

-- What a request writes.
def patch (io : Io) (j : Nat) : Option Byte :=
  if io.write ∧ io.start ≤ j ∧ j < io.start + io.length then some (io.buf (j - io.start)) else none

end Io

-- A request for blocks that the configuration names.
structure InRange (s : State) (io : Io) : Prop where
  blkno  : 0 ≤ io.blkno
  blkcnt : 1 ≤ io.blkcnt
  last   : io.blkno + io.blkcnt ≤ (disk_config s).blkcnt

-- The states after completed requests.
inductive Run (image : ByteFile) : List Io → State → Prop
  | nil : Run image [] (disk_init image)
  | snoc {ios : List Io} {io : Io} {s s' : State} {buf : Nat → Byte} : Run image ios s → InRange s io →
    disk_blkio io s = .ok (buf, s') → Run image (ios ++ [io]) s'

-- A read finds the bytes of the disk. What is written is read again, and the rest of the disk stays.
structure Read (s : State) (io : Io) (buf : Nat → Byte) (s' : State) : Prop where
  bytes : ∀ i < io.length, buf i = s.byte (io.start + i)
  rest  : ∀ j, s'.byte j = s.byte j

structure Written (s : State) (io : Io) (s' : State) : Prop where
  again : ∃ buf s'', disk_blkio { io with write := false } s' = .ok (buf, s'') ∧ ∀ i < io.length, buf i = io.buf i
  rest  : ∀ j, j < io.start ∨ io.start + io.length ≤ j → s'.byte j = s.byte j

def Served (s : State) (io : Io) : Prop :=
  ∃ buf s', disk_blkio io s = .ok (buf, s') ∧ if io.write then Written s io s' else Read s io buf s'

-- The offsets fit into an `int`, and a read finds its last block complete: in the image, or because it has been
-- written.
structure Complete (image : ByteFile) (ios : List Io) (io : Io) : Prop where
  offset : io.blkno * BLKSZ < 2 ^ 31
  length : io.blkcnt * BLKSZ < 2 ^ 31
  last   : io.write = false → io.start + io.length ≤ image.size ∨
    ∃ w ∈ ios, w.write ∧ io.start + io.length ≤ w.start + w.length

section Requests

theorem mul_ok {x y : Int} (h₀ : 0 ≤ x * y) (h : x * y < 2 ^ 31) : mul x y = .ok (x * y) :=
  if_pos ⟨by omega, h⟩

theorem mul_undefined {x y : Int} (h : ¬x * y < 2 ^ 31) : mul x y = .error .undefined :=
  if_neg fun hx => h hx.right

theorem size_t_eq {x : Int} (h₀ : 0 ≤ x) (h : x < 2 ^ 31) : size_t x = x.toNat := by
  rw [size_t, BitVec.toNat_ofInt]
  congr 1
  exact Int.emod_eq_of_lt h₀ <| h.trans (by decide)

-- What the request comes to.

section Cases

theorem blksz_nonneg {x : Int} (h : 0 ≤ x) : 0 ≤ x * BLKSZ :=
  Int.mul_nonneg h (by decide)

theorem length_ne_zero (hc : 1 ≤ io.blkcnt) : io.length ≠ 0 := by
  rw [Io.length, show BLKSZ = 512 by rfl]
  omega

theorem fseek_start (hb : 0 ≤ io.blkno) : f.fseek (io.blkno * BLKSZ) = { f with pos := io.start } :=
  if_neg <| Int.not_lt.mpr <| blksz_nonneg hb

theorem blkio_offset (hf : s.fp = some f) (ho : ¬io.blkno * BLKSZ < 2 ^ 31) :
    disk_blkio io s = .error .undefined := by
  rw [disk_blkio, hf]
  simp only [mul_undefined ho]
  rfl

theorem blkio_length (hf : s.fp = some f) (hb : 0 ≤ io.blkno) (ho : io.blkno * BLKSZ < 2 ^ 31)
    (hl : ¬io.blkcnt * BLKSZ < 2 ^ 31) : disk_blkio io s = .error .undefined := by
  rw [disk_blkio, hf]
  simp only [mul_ok (blksz_nonneg hb) ho, mul_undefined hl]
  rfl

-- Both kinds of requests without overflow: the transfer, and the assertion about its result.
theorem blkio_run (hf : s.fp = some f) (hb : 0 ≤ io.blkno) (hc : 1 ≤ io.blkcnt) (ho : io.blkno * BLKSZ < 2 ^ 31)
    (hl : io.blkcnt * BLKSZ < 2 ^ 31) : disk_blkio io s =
      let fp := { f with pos := io.start }
      if io.write then
        let (ret, fp) := fp.fwrite io.buf io.length
        if ret = 1 then .ok (io.buf, { s with fp }) else .error .assertion
      else
        let (ret, buf, fp) := fp.fread io.buf io.length
        if ret = 1 then .ok (buf, { s with fp }) else .error .assertion := by
  have hn : 0 ≤ io.blkcnt * BLKSZ := blksz_nonneg <| Int.le_of_lt hc
  have hs : size_t (io.blkcnt * BLKSZ) = io.length := size_t_eq hn hl
  rw [disk_blkio, hf]
  simp only [mul_ok (blksz_nonneg hb) ho, mul_ok hn hl, bind, Except.bind, hs, fseek_start hb, ite_not]
  rfl

theorem blkio_write (hf : s.fp = some f) (hb : 0 ≤ io.blkno) (hc : 1 ≤ io.blkcnt) (ho : io.blkno * BLKSZ < 2 ^ 31)
    (hl : io.blkcnt * BLKSZ < 2 ^ 31) (hw : io.write = true) :
    disk_blkio io s = .ok (io.buf, { s with fp := ({ f with pos := io.start }.fwrite io.buf io.length).snd }) := by
  have hr : ({ f with pos := io.start }.fwrite io.buf io.length).fst = 1 :=
    ByteFile.fwrite_complete <| length_ne_zero hc
  rw [blkio_run hf hb hc ho hl, hw]
  exact if_pos hr

-- A read succeeds if and only if all bytes are there.

theorem blkio_read (hf : s.fp = some f) (hb : 0 ≤ io.blkno) (hc : 1 ≤ io.blkcnt) (ho : io.blkno * BLKSZ < 2 ^ 31)
    (hl : io.blkcnt * BLKSZ < 2 ^ 31) (hw : io.write = false) (he : io.start + io.length ≤ f.size) :
    disk_blkio io s = .ok (({ f with pos := io.start }.fread io.buf io.length).snd.fst,
      { s with fp := ({ f with pos := io.start }.fread io.buf io.length).snd.snd }) := by
  have hr : ({ f with pos := io.start }.fread io.buf io.length).fst = 1 :=
    ByteFile.fread_complete (length_ne_zero hc) he
  rw [blkio_run hf hb hc ho hl, hw]
  exact if_pos hr

theorem blkio_short (hf : s.fp = some f) (hb : 0 ≤ io.blkno) (hc : 1 ≤ io.blkcnt) (ho : io.blkno * BLKSZ < 2 ^ 31)
    (hl : io.blkcnt * BLKSZ < 2 ^ 31) (hw : io.write = false) (he : f.size < io.start + io.length) :
    disk_blkio io s = .error .assertion := by
  have hr : ({ f with pos := io.start }.fread io.buf io.length).fst = 0 := ByteFile.fread_short he
  rw [blkio_run hf hb hc ho hl, hw]
  exact if_neg <| hr ▸ Nat.zero_ne_one

end Cases

-- The bytes are there in a file of the given length.
structure Fits (size : Nat) (io : Io) : Prop where
  offset : io.blkno * BLKSZ < 2 ^ 31
  length : io.blkcnt * BLKSZ < 2 ^ 31
  last   : io.write = false → io.start + io.length ≤ size

theorem fits_of_ok (hf : s.fp = some f) (hb : 0 ≤ io.blkno) (hc : 1 ≤ io.blkcnt)
    (h : disk_blkio io s = .ok (buf, s')) : Fits f.size io := by
  by_cases ho : io.blkno * BLKSZ < 2 ^ 31
  case neg => rw [blkio_offset hf ho] at h; cases h
  by_cases hl : io.blkcnt * BLKSZ < 2 ^ 31
  case neg => rw [blkio_length hf hb ho hl] at h; cases h
  refine ⟨ho, hl, fun hw => Nat.not_lt.mp fun he => ?_⟩
  rw [blkio_short hf hb hc ho hl hw he] at h
  cases h

theorem read_served (hf : s.fp = some f) (hb : 0 ≤ io.blkno) (hc : 1 ≤ io.blkcnt) (h : Fits f.size io)
    (hw : io.write = false) : ∃ buf s', disk_blkio io s = .ok (buf, s') ∧ Read s io buf s' := by
  refine ⟨_, _, blkio_read hf hb hc h.offset h.length hw (h.last hw), fun i hi => ?_, fun j => ?_⟩
  case refine_1 =>
    rw [State.byte, hf]
    exact ByteFile.fread_byte (h.last hw) hi
  case refine_2 =>
    simp only [State.byte, hf]
    exact ByteFile.byte_fread

-- The file after a write.
def wrote (f : ByteFile) (io : Io) : ByteFile :=
  ({ f with pos := io.start }.fwrite io.buf io.length).snd

theorem size_wrote (hn : io.length ≠ 0) : (wrote f io).size = max f.size (io.start + io.length) :=
  ByteFile.size_fwrite hn

theorem byte_wrote (hn : io.length ≠ 0) {j : Nat} : (wrote f io).byte j =
    if io.start ≤ j ∧ j < io.start + io.length then io.buf (j - io.start) else f.byte j :=
  ByteFile.byte_fwrite hn

theorem read_again (hf : s.fp = some (wrote f io)) (hb : 0 ≤ io.blkno) (hc : 1 ≤ io.blkcnt) (h : Fits f.size io) :
    ∃ buf s', disk_blkio { io with write := false } s = .ok (buf, s') ∧ ∀ i < io.length, buf i = io.buf i := by
  have hn := length_ne_zero hc
  have hs : io.start + io.length ≤ (wrote f io).size := by
    rw [size_wrote hn]
    exact Nat.le_max_right ..
  have ⟨buf, s', hd, hr⟩ : ∃ buf s', disk_blkio _ s = .ok (buf, s') ∧ Read s { io with write := false } buf s' :=
    read_served hf hb hc ⟨h.offset, h.length, fun _ => hs⟩ rfl
  refine ⟨buf, s', hd, fun i hi => (hr.bytes i hi).trans ?_⟩
  have hy : s.byte (io.start + i) = (wrote f io).byte (io.start + i) := by rw [State.byte, hf]
  refine hy.trans ?_
  rw [byte_wrote hn, if_pos ⟨Nat.le_add_right .., Nat.add_lt_add_left hi _⟩, Nat.add_sub_cancel_left]

theorem write_served (hf : s.fp = some f) (hb : 0 ≤ io.blkno) (hc : 1 ≤ io.blkcnt) (h : Fits f.size io)
    (hw : io.write = true) : ∃ buf s', disk_blkio io s = .ok (buf, s') ∧ Written s io s' := by
  refine ⟨_, _, blkio_write hf hb hc h.offset h.length hw, read_again rfl hb hc h, fun j hj => ?_⟩
  have hj : ¬(io.start ≤ j ∧ j < io.start + io.length) := by omega
  have hy : (wrote f io).byte j = f.byte j := by rw [byte_wrote (length_ne_zero hc), if_neg hj]
  simp only [State.byte, hf]
  exact hy

theorem served_iff (hf : s.fp = some f) (hb : 0 ≤ io.blkno) (hc : 1 ≤ io.blkcnt) : Served s io ↔ Fits f.size io := by
  constructor
  case mp => exact fun ⟨_, _, h, _⟩ => fits_of_ok hf hb hc h
  case mpr =>
    intro h
    cases hw : io.write
    case false =>
      have ⟨buf, s', hs, hr⟩ := read_served hf hb hc h hw
      exact ⟨buf, s', hs, by simpa [hw] using hr⟩
    case true =>
      have ⟨buf, s', hs, hr⟩ := write_served hf hb hc h hw
      exact ⟨buf, s', hs, by simpa [hw] using hr⟩

end Requests

section Runs

-- The file during a run: its bytes are those of the image and of the writes, and writes may have completed its last
-- block.
structure Holds (image : ByteFile) (ios : List Io) (s : State) (f : ByteFile) : Prop where
  file  : s.fp = some f
  bytes : f.byte = overlays image.byte (ios.map Io.patch)
  size  : ∀ e, e ≤ f.size ↔ e ≤ image.size ∨ ∃ w ∈ ios, w.write ∧ e ≤ w.start + w.length

theorem holds_init : Holds image [] (disk_init image) (image.fseek 0) where
  file  := rfl
  bytes := rfl
  size  := by simp [ByteFile.fseek]

theorem Holds.read (h : Holds image ios s f) (hw : io.write = false) {g : ByteFile} (hg : s'.fp = some g)
    (hb : g.byte = f.byte) (hs : g.size = f.size) : Holds image (ios ++ [io]) s' g where
  file  := hg
  bytes := by
    have hp : io.patch = fun _ => none := by
      funext j
      simp [Io.patch, hw]
    rw [List.map_append, Overlay.overlays_append, ← h.bytes, hb, List.map_singleton, hp]
    rfl
  size e := by
    rw [hs, h.size]
    simp [hw]

theorem Holds.write (h : Holds image ios s f) (hw : io.write = true) (hn : io.length ≠ 0)
    (hg : s'.fp = some (wrote f io)) : Holds image (ios ++ [io]) s' (wrote f io) where
  file  := hg
  bytes := by
    rw [List.map_append, Overlay.overlays_append, ← h.bytes, List.map_singleton]
    funext j
    rw [byte_wrote hn, Overlay.overlays, List.foldl_cons, List.foldl_nil, Overlay.overlay, Io.patch, hw]
    by_cases hj : io.start ≤ j ∧ j < io.start + io.length
    case pos => rw [if_pos hj, if_pos ⟨rfl, hj⟩, Option.getD_some]
    case neg => rw [if_neg hj, if_neg fun hj' => hj hj'.right, Option.getD_none]
  size e := by
    rw [size_wrote hn, le_max_iff, h.size, or_assoc]
    simp [hw, or_and_right, exists_or]

theorem holds_of_run (h : Run image ios s) : ∃ f, Holds image ios s f := by
  induction h
  case nil => exact ⟨_, holds_init⟩
  case snoc io s s' buf hr hi hd hf =>
    have ⟨f, hf⟩ := hf
    have ⟨ho, hl, he⟩ := fits_of_ok hf.file hi.blkno hi.blkcnt hd
    cases hw : io.write
    case false =>
      rw [blkio_read hf.file hi.blkno hi.blkcnt ho hl hw (he hw)] at hd
      cases hd
      exact ⟨_, hf.read hw rfl (funext fun _ => ByteFile.byte_fread) ByteFile.size_fread⟩
    case true =>
      rw [blkio_write hf.file hi.blkno hi.blkcnt ho hl hw] at hd
      cases hd
      exact ⟨_, hf.write hw (length_ne_zero hi.blkcnt) rfl⟩

theorem Holds.fits_iff (h : Holds image ios s f) : Fits f.size io ↔ Complete image ios io := by
  constructor
  case mp => exact fun ⟨ho, hl, he⟩ => ⟨ho, hl, fun hw => (h.size _).mp <| he hw⟩
  case mpr => exact fun ⟨ho, hl, he⟩ => ⟨ho, hl, fun hw => (h.size _).mpr <| he hw⟩

-- The disk shows the image with what has been written, and serves a request if and only if it is complete.
theorem request_served_iff (image : ByteFile) (ios : List Io) (s : State) (io : Io) (hr : Run image ios s)
    (hi : InRange s io) :
    s.byte = overlays image.byte (ios.map Io.patch) ∧ (Served s io ↔ Complete image ios io) := by
  have ⟨f, hf⟩ := holds_of_run hr
  refine ⟨?_, (served_iff hf.file hi.blkno hi.blkcnt).trans hf.fits_iff⟩
  rw [← hf.bytes]
  funext j
  rw [State.byte, hf.file]

-- An image of 700 bytes has two blocks, of which the second one is not complete.

def image700 : ByteFile :=
  ⟨700, fun _ => 0xff, 0⟩

def readBlock (blkno : Int) : Io :=
  ⟨false, fun _ => 0, blkno, 1⟩

def writeBlock (blkno : Int) : Io :=
  ⟨true, fun _ => 1, blkno, 1⟩

-- When the second block has been written, it is read.
theorem request_served_iff_written : ∃ s, Run image700 [writeBlock 1] s ∧ s.byte 512 = 1 ∧ s.byte 0 = 0xff ∧
    Served s (readBlock 1) := by
  have hw : InRange (disk_init image700) (writeBlock 1) := ⟨by decide, by decide, by decide⟩
  have hs := blkio_write (s := disk_init image700) rfl hw.blkno hw.blkcnt (by decide) (by decide) rfl
  have hr := Run.nil.snoc hw hs
  have h := request_served_iff image700 [writeBlock 1] _ (readBlock 1) hr ⟨by decide, by decide, by decide⟩
  refine ⟨_, hr, (congrFun h.left 512).trans (by decide), (congrFun h.left 0).trans (by decide), h.right.mpr ?_⟩
  exact ⟨by decide, by decide, fun _ => .inr ⟨writeBlock 1, List.mem_singleton_self _, rfl, by decide⟩⟩

theorem last_block_not_served : ¬∀ (image : ByteFile) (ios : List Io) (s : State) (io : Io), Run image ios s →
    InRange s io → Served s io := by
  intro h
  have hs := h image700 [] _ (readBlock 1) .nil ⟨by decide, by decide, by decide⟩
  have hf : Fits 700 (readBlock 1) := (served_iff rfl (by decide) (by decide)).mp hs
  exact absurd (hf.last rfl) (by decide)

end Runs
end Am.Native.Disk
