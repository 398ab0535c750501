import Mathlib.Data.BitVec
import Mathlib.Logic.Function.Basic
import Mathlib.Data.Set.Basic

abbrev Byte := BitVec 8
abbrev Word := BitVec 32

-- The bytes of a word, the bits of a byte and the bits of a word are counted from 0.
instance neZero_four : NeZero 4 := ⟨by decide⟩
instance neZero_eight : NeZero 8 := ⟨by decide⟩
instance neZero_thirty_two : NeZero 32 := ⟨by decide⟩

namespace BitVec

variable {v v₁ v₂ : Word} {f g : Nat → Byte} {b : Byte} {i j : Nat}

-- The `i`-th byte of a word, counted from the low end.
def byte (v : Word) (i : Nat) : Byte :=
  v.extractLsb' (8 * i) 8

-- The word with low byte `f 0` and high byte `f 3`.
def ofBytes (f : Nat → Byte) : Word :=
  f 3 ++ f 2 ++ f 1 ++ f 0

@[simp] theorem getLsbD_byte : (v.byte i).getLsbD j = (decide (j < 8) && v.getLsbD (8 * i + j)) := by
  simp [byte]

@[simp] theorem getLsbD_ofBytes :
    (ofBytes f).getLsbD j = (decide (j < 32) && (f (j / 8)).getLsbD (j % 8)) := by
  simp only [ofBytes, getLsbD_append]
  by_cases h₁ : j < 8
  case pos => simp [h₁, Nat.div_eq_of_lt h₁, Nat.mod_eq_of_lt h₁, Nat.lt_of_lt_of_le h₁]
  by_cases h₂ : j < 16
  case pos => simp [h₁, show j / 8 = 1 by omega, show j % 8 = j - 8 by omega, show j < 32 by omega,
    show j - 8 < 8 by omega]
  by_cases h₃ : j < 24
  case pos => simp [h₁, show j / 8 = 2 by omega, show j % 8 = j - 16 by omega,
    show j < 32 by omega, show ¬j - 8 < 8 by omega, Nat.sub_sub, show j - 16 < 8 by omega]
  by_cases h₄ : j < 32
  case pos => simp [h₁, show j / 8 = 3 by omega, show j % 8 = j - 24 by omega, h₄,
    show ¬j - 8 < 8 by omega, Nat.sub_sub, show ¬j - 16 < 8 by omega]
  case neg => simp [h₁, h₄, Nat.sub_sub, show ¬j - 8 < 8 by omega, show ¬j - 16 < 8 by omega,
    show 8 ≤ j - 24 by omega]

theorem byte_ofBytes (h : i < 4) : (ofBytes f).byte i = f i := by
  ext j hj
  have h₁ : (8 * i + j) / 8 = i := by omega
  have h₂ : (8 * i + j) % 8 = j := by omega
  simp [byte, h₁, h₂, hj]
  omega

theorem eq_of_byte (h : ∀ i < 4, v₁.byte i = v₂.byte i) : v₁ = v₂ := by
  ext j hj
  have hb := congrArg (getLsbD · (j % 8)) (h (j / 8) (by omega))
  simp only [getLsbD_byte, Nat.div_add_mod, Nat.mod_lt j (by decide : 8 > 0), decide_true,
    Bool.true_and] at hb
  simpa [hj] using hb

theorem ofBytes_congr (h : ∀ i < 4, f i = g i) : ofBytes f = ofBytes g := by
  simp [ofBytes, h]

@[simp] theorem ofBytes_byte : ofBytes v.byte = v :=
  eq_of_byte fun _ => byte_ofBytes

theorem eq_ofBytes (h : ∀ i < 4, v.byte i = f i) : v = ofBytes f :=
  eq_of_byte fun _ hi => (h _ hi).trans (byte_ofBytes hi).symm

theorem byte_not (h : i < 4) : (~~~v).byte i = ~~~(v.byte i) := by
  ext j hj
  simp [byte, show 8 * i + j < 32 by omega]

theorem byte_zero : (0 : Word).byte i = 0 := by
  ext j hj
  simp [byte]

theorem byte_setWidth : (b.setWidth 32 : Word).byte i = if i = 0 then b else 0 := by
  ext j hj
  by_cases h : i = 0
  case pos => simp [byte, h, hj, show j < 32 by omega]
  case neg => simp [byte, h, BitVec.getLsbD_of_ge b (8 * i + j) (by omega)]

@[simp] theorem byte_setWidth_zero : (b.setWidth 32).byte 0 = b :=
  byte_setWidth

-- The word `v` with its `i`-th byte replaced.
def setByte (v : Word) (i : Nat) (b : Byte) : Word :=
  ofBytes (Function.update v.byte i b)

theorem byte_setByte (h : i < 4) : (v.setByte j b).byte i = if i = j then b else v.byte i := by
  simp [setByte, byte_ofBytes h, Function.update_apply]

theorem toNat_byte : (v.byte i).toNat = v.toNat / 2 ^ (8 * i) % 2 ^ 8 := by
  simp [byte, Nat.shiftRight_eq_div_pow]

theorem toNat_ofBytes : (ofBytes f).toNat =
    (f 0).toNat + 2 ^ 8 * (f 1).toNat + 2 ^ 16 * (f 2).toNat + 2 ^ 24 * (f 3).toNat := by
  simp only [ofBytes, toNat_append]
  rw [← Nat.shiftLeft_add_eq_or_of_lt (f 0).isLt, ← Nat.shiftLeft_add_eq_or_of_lt (f 1).isLt,
    ← Nat.shiftLeft_add_eq_or_of_lt (f 2).isLt]
  simp only [Nat.shiftLeft_eq]
  omega

end BitVec

-- Little-endian access to byte-addressed memories. Addresses are `w`-bit words and wrap around, so a
-- word stored at the top of the address space continues at address 0.

abbrev Memory (w : Nat) := BitVec w → Byte

namespace Memory

open BitVec

variable {w k n : Nat} {m m₁ m₂ : Memory w} {a x : BitVec w} {v : BitVec k} {bs : List Byte}

-- The `n` addresses from `a` on.
def region (a : BitVec w) (n : Nat) : Set (BitVec w) :=
  { x | (x - a).toNat < n }

theorem mem_region : x ∈ region a n ↔ (x - a).toNat < n := .rfl

def load32 (m : Memory w) (a : BitVec w) : Word :=
  ofBytes fun i => m (a + BitVec.ofNat w i)

-- Overwrites the `n` bytes from `a` on by the `n` low bytes of `v`.
def store (m : Memory w) (a : BitVec w) (n : Nat) (v : BitVec k) : Memory w :=
  fun x => if (x - a).toNat < n then v.extractLsb' (8 * (x - a).toNat) 8 else m x

theorem store_apply : m.store a n v x =
    if (x - a).toNat < n then v.extractLsb' (8 * (x - a).toNat) 8 else m x := rfl

theorem store_of_mem (h : x ∈ region a n) : m.store a n v x = v.extractLsb' (8 * (x - a).toNat) 8 :=
  if_pos h

theorem store_of_not_mem (h : x ∉ region a n) : m.store a n v x = m x :=
  if_neg h

theorem toNat_sub_eq_zero_iff : (x - a).toNat = 0 ↔ x = a := by
  rw [← sub_eq_zero (b := a), BitVec.toNat_eq]
  simp [-BitVec.toNat_sub]

theorem store_one {v : Word} : m.store a 1 v = Function.update m a (v.byte 0) := by
  ext1 x
  by_cases h : x = a
  case pos => simp [h, store, byte]
  case neg => simp [h, store, toNat_sub_eq_zero_iff, -BitVec.toNat_sub]

theorem load32_congr (h : ∀ i < 4, m₁ (a + BitVec.ofNat w i) = m₂ (a + BitVec.ofNat w i)) :
    m₁.load32 a = m₂.load32 a :=
  ofBytes_congr h

theorem toNat_add_ofNat_sub {i : Nat} (h : i < 2 ^ w) : (a + BitVec.ofNat w i - a).toNat = i := by
  rw [add_sub_cancel_left, BitVec.toNat_ofNat, Nat.mod_eq_of_lt h]

theorem mem_region_iff (h : n ≤ 2 ^ w) : x ∈ region a n ↔ ∃ i < n, x = a + BitVec.ofNat w i where
  mp hx := ⟨_, hx, by rw [BitVec.ofNat_toNat, BitVec.setWidth_eq, BitVec.add_comm, BitVec.sub_add_cancel]⟩
  mpr := by
    intro ⟨i, hi, hx⟩
    rwa [hx, mem_region, toNat_add_ofNat_sub (by omega)]

theorem region_byte_subset {i : Nat} (hi : i < n) (hn : n ≤ 2 ^ w) :
    region (a + BitVec.ofNat w i) 1 ⊆ region a n := by
  intro x hx
  obtain ⟨j, hj, rfl⟩ := (mem_region_iff (by omega)).mp hx
  rw [Nat.lt_one_iff.mp hj, BitVec.add_zero, mem_region, toNat_add_ofNat_sub (by omega)]
  exact hi

theorem load32_store_same {v : Word} (hw : 4 ≤ 2 ^ w) : (m.store a 4 v).load32 a = v := by
  refine (eq_ofBytes fun i hi => ?_).symm
  rw [store_apply, toNat_add_ofNat_sub (by omega), if_pos hi, byte]

-- A word does not change when bytes before or after it are stored.
theorem load32_store_disjoint {i j : Nat} (h : i + 4 ≤ j ∨ j + n ≤ i) (hi : i + 4 ≤ 2 ^ w) (hj : j + n ≤ 2 ^ w) :
    (m.store (a + BitVec.ofNat w j) n v).load32 (a + BitVec.ofNat w i) = m.load32 (a + BitVec.ofNat w i) := by
  refine load32_congr fun k hk => store_of_not_mem ?_
  rw [BitVec.add_assoc, ← BitVec.ofNat_add, mem_region_iff (by omega)]
  intro ⟨l, hl, he⟩
  rw [BitVec.add_assoc, ← BitVec.ofNat_add, add_right_inj, BitVec.toNat_eq, BitVec.toNat_ofNat, BitVec.toNat_ofNat,
    Nat.mod_eq_of_lt (by omega), Nat.mod_eq_of_lt (by omega)] at he
  omega

-- The bytes `bs` are stored from `a` on.
def Holds (m : Memory w) (a : BitVec w) (bs : List Byte) : Prop :=
  ∀ i b, bs[i]? = some b → m (a + BitVec.ofNat w i) = b

theorem Holds.left {cs : List Byte} (h : m.Holds a (bs ++ cs)) : m.Holds a bs :=
  fun i b hb => h i b <| by rw [List.getElem?_append_left (List.getElem?_eq_some_iff.mp hb).fst, hb]

theorem Holds.right {cs : List Byte} (h : m.Holds a (bs ++ cs)) (ha : a + BitVec.ofNat w bs.length = x) :
    m.Holds x cs := by
  intro i b hb
  rw [← ha, BitVec.add_assoc, ← BitVec.ofNat_add]
  exact h _ b <| by rw [List.getElem?_append_right (Nat.le_add_right ..), Nat.add_sub_cancel_left, hb]

theorem Holds.congr (h : m₁.Holds a bs) (he : ∀ x ∈ region a bs.length, m₂ x = m₁ x) : m₂.Holds a bs := by
  intro i b hb
  have hi : i < bs.length := (List.getElem?_eq_some_iff.mp hb).fst
  have hx : a + BitVec.ofNat w i ∈ region a bs.length := by
    rw [mem_region, add_sub_cancel_left, BitVec.toNat_ofNat]
    exact Nat.lt_of_le_of_lt (Nat.mod_le ..) hi
  rw [he _ hx, h i b hb]

theorem byte_load32 (h : i < 4) : (m.load32 a).byte i = m (a + BitVec.ofNat w i) :=
  byte_ofBytes h

end Memory
