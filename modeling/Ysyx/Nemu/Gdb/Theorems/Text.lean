import Mathlib.Data.Nat.Digits.Lemmas
import Ysyx.Nemu.Gdb.Stub
import Ysyx.Nemu.Theorems.Grammar

-- The texts of commands and replies.

namespace Nemu.Gdb

variable {bytes s t : List Byte} {words : List Word} {n i : Nat} {c d : Byte}

section Digits

-- The sixteen digits.
theorem digit_hexEncode {v : Nat} (h : v < 16) : digit? 16 (hexEncode (BitVec.ofNat 8 v)) = some v := by
  revert v
  decide

theorem not_special_digit : ∀ c : Byte, (digit? 16 c).isSome = true → ¬Special c := by
  decide

theorem digit_high : ∀ b : Byte, digit? 16 (hexEncode (b >>> 4)) = some (b.toNat / 16) := by
  decide

theorem digit_low : ∀ b : Byte, digit? 16 (hexEncode (b &&& 0xf)) = some (b.toNat % 16) := by
  decide

theorem decode_hexEncode : ∀ b : Byte, isxdigit (hexEncode (b >>> 4)) = true ∧ isxdigit (hexEncode (b &&& 0xf)) = true ∧
    gdbDecodeHex (hexEncode (b >>> 4)) (hexEncode (b &&& 0xf)) = b.setWidth 16 := by
  decide

end Digits

section Numbers

theorem numeral_hexText (n : Nat) : Numeral 16 (hexText n) n := by
  by_cases h : n = 0
  case pos =>
    subst h
    exact ⟨by decide, [0], by decide, by decide⟩
  case neg =>
    rw [hexText, if_neg h]
    refine ⟨by simpa [Nat.digits_ne_nil_iff_ne_zero] using h, (Nat.digits 16 n).reverse, ?_, ?_⟩
    case refine_1 =>
      rw [List.map_map]
      refine List.map_congr_left fun d hd => digit_hexEncode ?_
      exact Nat.digits_lt_base (by decide) (List.mem_reverse.mp hd)
    case refine_2 => rw [List.reverse_reverse, Nat.ofDigits_digits]

end Numbers

section Bytes

@[simp] theorem hexBytes_cons {b : Byte} :
    hexBytes (b :: bytes) = hexEncode (b >>> 4) :: hexEncode (b &&& 0xf) :: hexBytes bytes :=
  rfl

theorem unhex_hexBytes : unhex (hexBytes bytes) = some bytes := by
  induction bytes
  case nil => rfl
  case cons b bytes hi =>
    have hb : BitVec.ofNat 8 (16 * (b.toNat / 16) + b.toNat % 16) = b := by
      rw [Nat.div_add_mod, BitVec.ofNat_toNat, BitVec.setWidth_eq]
    rw [hexBytes_cons, unhex, digit_high, digit_low, hi]
    exact congrArg (fun b => some (b :: bytes)) hb

theorem length_hexBytes : (hexBytes bytes).length = 2 * bytes.length := by
  induction bytes
  case nil             => rfl
  case cons b bytes hi => simp [hi]; omega

theorem hexBytes_append : hexBytes (bytes ++ s) = hexBytes bytes ++ hexBytes s :=
  List.flatMap_append

theorem wordsBytes_append {words' : List Word} : wordsBytes (words ++ words') = wordsBytes words ++ wordsBytes words' :=
  List.flatMap_append

theorem length_wordsBytes : (wordsBytes words).length = 4 * words.length := by
  induction words
  case nil             => rfl
  case cons w words hi => simp only [wordsBytes, List.flatMap_cons, List.length_append] at hi ⊢; simp [hi]; omega

-- A word among others.
theorem wordsBytes_split (h : i < words.length) : wordsBytes words = wordsBytes (words.take i) ++
    ([words[i].byte 0, words[i].byte 1, words[i].byte 2, words[i].byte 3] ++ wordsBytes (words.drop (i + 1))) := by
  conv_lhs => rw [← List.take_append_drop i words, List.drop_eq_getElem_cons h, wordsBytes_append]
  rfl

theorem getD_append_at {d : Byte} (h : s.length = n) : (s ++ t).getD (n + i) d = t.getD i d := by
  rw [List.getD_eq_getElem?_getD, List.getElem?_append_right (by omega), ← h, Nat.add_sub_cancel_left,
    List.getD_eq_getElem?_getD]

theorem bytesWords_wordsBytes (h : n ≤ words.length) : bytesWords n (wordsBytes words) = words.take n := by
  refine List.ext_getElem (by simp [bytesWords, h]) fun i hi _ => ?_
  have hn : i < n := by simpa [bytesWords] using hi
  simp only [bytesWords, List.getElem_map, List.getElem_range, List.getElem_take]
  rw [wordsBytes_split (Nat.lt_of_lt_of_le hn h)]
  have hl : (wordsBytes (words.take i)).length = 4 * i := by
    rw [length_wordsBytes, List.length_take, Nat.min_eq_left (by omega)]
  refine (BitVec.eq_ofBytes fun j hj => ?_).symm
  rw [getD_append_at hl]
  interval_cases j
  case «0» => rfl
  all_goals rfl

theorem decodeHexFrom_hexBytes {b : Byte} {value weight : BitVec 64} :
    decodeHexFrom value weight (hexBytes (b :: bytes)) =
      decodeHexFrom (value + weight * b.setWidth 64) (weight * (16 * 16)) (hexBytes bytes) := by
  have ⟨h, l, hd⟩ := decode_hexEncode b
  have hb : (b.setWidth 16).setWidth 64 = b.setWidth 64 := by bv_omega
  rw [hexBytes_cons, decodeHexFrom, h, l, hd, if_pos (by rfl), hb]

theorem decode_word (w : Word) :
    (gdbDecodeHexStr (hexBytes [w.byte 0, w.byte 1, w.byte 2, w.byte 3])).setWidth 32 = w := by
  have hw := BitVec.toNat_ofBytes (f := w.byte)
  rw [BitVec.ofBytes_byte] at hw
  rw [gdbDecodeHexStr, decodeHexFrom_hexBytes, decodeHexFrom_hexBytes, decodeHexFrom_hexBytes, decodeHexFrom_hexBytes]
  generalize w.byte 0 = b₀, w.byte 1 = b₁, w.byte 2 = b₂, w.byte 3 = b₃ at hw
  simp [hexBytes, decodeHexFrom]
  bv_omega

theorem register_hexBytes (h : i < words.length) (memory : Nat → Byte) :
    register memory (hexBytes (wordsBytes words)) i = words[i] := by
  have hl : (hexBytes (wordsBytes (words.take i))).length = 8 * i := by
    rw [length_hexBytes, length_wordsBytes, List.length_take, Nat.min_eq_left (by omega)]
    omega
  rw [register, wordsBytes_split h, hexBytes_append, hexBytes_append, List.append_assoc, List.append_assoc]
  simp only [getD_append_at hl]
  exact decode_word _

end Bytes

section Commands

theorem parseWrite_eq (hs : Numeral 16 s i) (ht : Numeral 16 t bytes.length) :
    parseWrite (s ++ 0x2c :: (t ++ 0x3a :: hexBytes bytes)) = some (.write (BitVec.ofNat 32 i) bytes) := by
  have hn₁ : number 16 (s ++ 0x2c :: (t ++ 0x3a :: hexBytes bytes)) = some (i, 0x2c :: (t ++ 0x3a :: hexBytes bytes)) :=
    number_append hs fun c hc => by cases hc; decide
  have hn₂ : number 16 (t ++ 0x3a :: hexBytes bytes) = some (bytes.length, 0x3a :: hexBytes bytes) :=
    number_append ht fun c hc => by cases hc; decide
  simp only [parseWrite, hn₁, hn₂, unhex_hexBytes, Option.bind_eq_bind, Option.bind_some, List.head?_cons,
    List.tail_cons]
  simp

theorem parse_writeCommand {dest : Word} : parse (writeCommand dest bytes) = some (.write dest bytes) := by
  have h := parseWrite_eq (numeral_hexText dest.toNat) (numeral_hexText bytes.length)
  rw [BitVec.ofNat_toNat, BitVec.setWidth_eq] at h
  rw [← h]
  simp only [writeCommand, List.append_assoc, List.cons_append, List.nil_append]
  rfl

theorem parse_setregsCommand : parse (setregsCommand words) = some (.writeRegs (wordsBytes words)) := by
  exact congrArg (Option.map Command.writeRegs) unhex_hexBytes

theorem parse_stepCommand : parse stepCommand = some .step := by
  decide

-- No character of a command has a meaning of its own.
def Plain (s : List Byte) : Prop :=
  ∀ c ∈ s, ¬Special c

instance decidablePlain (s : List Byte) : Decidable (Plain s) :=
  inferInstanceAs <| Decidable (∀ c ∈ s, _)

theorem Plain.append (hs : Plain s) (ht : Plain t) : Plain (s ++ t) := fun c hc =>
  (List.mem_append.mp hc).elim (hs c) (ht c)

theorem plain_hexBytes : Plain (hexBytes bytes) := by
  intro c hc
  have ⟨b, _, hb⟩ := List.mem_flatMap.mp hc
  obtain rfl | rfl : c = hexEncode (b >>> 4) ∨ c = hexEncode (b &&& 0xf) := by simpa using hb
  case inl => exact not_special_digit _ (by rw [digit_high]; rfl)
  case inr => exact not_special_digit _ (by rw [digit_low]; rfl)

theorem plain_hexText : Plain (hexText n) := by
  intro c hc
  have ⟨_, ds, hd, _⟩ := numeral_hexText n
  have hc : digit? 16 c ∈ (hexText n).map (digit? 16) := List.mem_map_of_mem hc
  rw [hd] at hc
  have ⟨d, _, hd⟩ := List.mem_map.mp hc
  exact not_special_digit c (by rw [← hd]; rfl)

theorem plain_writeCommand {dest : Word} : Plain (writeCommand dest bytes) := by
  have h₁ : Plain [0x4d, 0x30, 0x78] := by decide
  have h₂ : Plain [0x2c] := by decide
  have h₃ : Plain [0x3a] := by decide
  exact ((((h₁.append plain_hexText).append h₂).append plain_hexText).append h₃).append plain_hexBytes

theorem plain_setregsCommand : Plain (setregsCommand words) := by
  have h : Plain [0x47] := by decide
  exact h.append plain_hexBytes

end Commands

end Nemu.Gdb
