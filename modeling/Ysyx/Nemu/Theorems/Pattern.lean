import Mathlib.Tactic.IntervalCases
import Ysyx.Bits.Pattern
import Ysyx.Nemu.Pattern

-- What the instruction patterns test for.

namespace Nemu

open Bits

variable {a : Alphabet} {str cs : List Char} {c : Char} {d d' : Decoded} {e : Exit} {len i k : Nat}

section Unrolling

variable {m : Nat → Decoded → Except Exit Decoded}

def unroll (m : Nat → Decoded → Except Exit Decoded) (is : List Nat) (d : Decoded) : Except Exit Decoded :=
  is.foldlM (fun d i => m i d) d

theorem unroll_append {is is' : List Nat} : unroll m (is ++ is') d = unroll m is d >>= unroll m is' :=
  List.foldlM_append

theorem unroll_cons {is : List Nat} : unroll m (i :: is) d = m i d >>= unroll m is :=
  List.foldlM_cons

theorem unroll_twice :
    (fun d => unroll m (List.range' i k) d >>= unroll m (List.range' (i + k) k)) =
      unroll m (List.range' i (k + k)) := by
  funext d
  rw [← unroll_append, List.range'_append_1]

theorem macro2_eq : macro2 m i = unroll m (List.range' i 2) := by
  funext d
  simp [macro2, unroll, List.range']

theorem macro4_eq : macro4 m i = unroll m (List.range' i 4) := by
  rw [show List.range' i 4 = List.range' i (2 + 2) from rfl, ← unroll_twice, ← macro2_eq, ← macro2_eq]
  rfl

theorem macro8_eq : macro8 m i = unroll m (List.range' i 8) := by
  rw [show List.range' i 8 = List.range' i (4 + 4) from rfl, ← unroll_twice, ← macro4_eq, ← macro4_eq]
  rfl

theorem macro16_eq : macro16 m i = unroll m (List.range' i 16) := by
  rw [show List.range' i 16 = List.range' i (8 + 8) from rfl, ← unroll_twice, ← macro8_eq, ← macro8_eq]
  rfl

theorem macro32_eq : macro32 m i = unroll m (List.range' i 32) := by
  rw [show List.range' i 32 = List.range' i (16 + 16) from rfl, ← unroll_twice, ← macro16_eq, ← macro16_eq]
  rfl

theorem macro64_eq : macro64 m i = unroll m (List.range' i 64) := by
  rw [show List.range' i 64 = List.range' i (32 + 32) from rfl, ← unroll_twice, ← macro32_eq, ← macro32_eq]
  rfl

end Unrolling

namespace Alphabet

-- The characters one after the other, without the bookkeeping of the unrolled loop.
def characters (a : Alphabet) (d : Decoded) (cs : List Char) : Except Exit Decoded :=
  cs.foldlM a.character d

@[simp] theorem characters_nil : a.characters d [] = .ok d := (rfl)

theorem characters_cons : a.characters d (c :: cs) = a.character d c >>= fun d => a.characters d cs :=
  List.foldlM_cons

end Alphabet

theorem unroll_macro1 (h : i ≤ str.length) : unroll (macro1 a str str.length) (List.range' i k) d =
    a.characters d ((str.drop i).take k) >>= fun d => if str.length < i + k then .error (.finish d) else .ok d := by
  induction k generalizing i d
  case zero => simp [unroll, pure, Except.pure, bind, Except.bind, h]
  case succ k hi =>
    rw [List.range'_succ, unroll_cons, macro1]
    by_cases he : i ≥ str.length
    case pos =>
      rw [if_pos he, List.drop_of_length_le he]
      simp [bind, Except.bind, show str.length < i + (k + 1) by omega]
    case neg =>
      have hl : i < str.length := Nat.lt_of_not_le he
      rw [if_neg he, List.drop_eq_getElem_cons hl, List.take_succ_cons, Alphabet.characters_cons,
        List.getD_eq_getElem?_getD, List.getElem?_eq_getElem hl, Option.getD_some, bind_assoc]
      congr 1
      funext d
      rw [hi (by omega), show i + (k + 1) = i + 1 + k by omega]

theorem Alphabet.characters_ne_finish : a.characters d cs ≠ .error (.finish d') := by
  induction cs generalizing d
  case nil => exact nofun
  case cons c cs hi =>
    rw [characters_cons, character]
    split
    case isFalse => exact hi
    case isTrue =>
      split
      case isTrue => exact hi
      case isFalse => exact nofun

-- What it takes for the decoding to return, where `n` is the unrolling limit.
theorem finish_unroll_iff {n : Nat} : finish (unroll (macro1 a str str.length) (List.range' 0 n) d) = .ok d' ↔
    str.length < n ∧ ∃ d₁, a.characters d str = .ok d₁ ∧
      d' = { key := d₁.key >>> d₁.shift, mask := d₁.mask >>> d₁.shift, shift := d₁.shift } := by
  rw [unroll_macro1 (Nat.zero_le _), List.drop_zero, Nat.zero_add]
  by_cases hn : str.length < n
  case pos =>
    rw [List.take_of_length_le (by omega)]
    cases hc : a.characters d str
    case ok d₁ => simp [bind, Except.bind, finish, hn, eq_comm]
    case error e =>
      cases e
      case fail => simp [bind, Except.bind, finish]
      case finish => exact absurd hc a.characters_ne_finish
  case neg =>
    cases hc : a.characters d (str.take n)
    case ok d₁ => simp [bind, Except.bind, finish, hn]
    case error e =>
      cases e
      case fail => simp [bind, Except.bind, finish, hn]
      case finish => exact absurd hc a.characters_ne_finish

-- The characters of a pattern string that count.
def significant (str : List Char) : List Char :=
  str.filter (· ≠ ' ')

namespace Alphabet

-- The digit that a character shows.
def digit (a : Alphabet) (c : Char) : Option (BitVec a.bits) :=
  if c = '?' then none else some ((a.value c).setWidth a.bits)

def pattern (a : Alphabet) (str : List Char) : List (Option (BitVec a.bits)) :=
  (significant str).map a.digit

@[simp] theorem pattern_nil : a.pattern [] = [] := (rfl)

theorem pattern_space : a.pattern (' ' :: cs) = a.pattern cs := (rfl)

theorem pattern_cons (h : c ≠ ' ') : a.pattern (c :: cs) = a.digit c :: a.pattern cs := by
  simp [pattern, significant, h]

-- The values that are added to the key and to the mask fit into one digit.
structure Lawful (a : Alphabet) : Prop where
  ones  : a.ones = (BitVec.allOnes a.bits).setWidth 64
  wild  : a.value '?' = 0
  value : ∀ c, a.valid c → ((a.value c).setWidth a.bits).setWidth 64 = a.value c

end Alphabet

-- The local variables of the loop after some digits.
structure Encodes {w : Nat} (p : List (Option (BitVec w))) (d : Decoded) : Prop where
  test  : ⟨d.key, d.mask⟩ = (Test.ofPattern p : Test 64)
  shift : d.shift.toNat ≤ w * p.length
  low   : (Test.ofPattern p : Test 64).From d.shift.toNat

namespace Encodes

theorem nil {w : Nat} : Encodes ([] : List (Option (BitVec w))) ⟨0, 0, 0⟩ where
  test  := rfl
  shift := Nat.zero_le _
  low   := Test.empty_from

theorem character {p : List (Option (BitVec a.bits))} (ha : a.Lawful) (h : Encodes p d) (hc : c ≠ ' ')
    (hl : a.bits * (p.length + 1) < 64) (he : a.character d c = .ok d') : Encodes (p ++ [a.digit c]) d' := by
  have hs : (d.shift + .ofNat 64 a.bits).toNat = d.shift.toNat + a.bits := by
    have := h.shift
    rw [Nat.mul_add, Nat.mul_one] at hl
    rw [BitVec.toNat_add, BitVec.toNat_ofNat, Nat.mod_eq_of_lt (a := a.bits) (by omega), Nat.mod_eq_of_lt (by omega)]
  have hlen : a.bits * (p ++ [a.digit c]).length = a.bits * p.length + a.bits := by
    rw [List.length_append, List.length_singleton, Nat.mul_add, Nat.mul_one]
  rw [Alphabet.character, if_pos hc] at he
  split at he
  case isFalse => cases he
  case isTrue hv =>
    cases he
    have hkey : d.key = (Test.ofPattern p : Test 64).key := congrArg Test.key h.test
    have hmask : d.mask = (Test.ofPattern p : Test 64).mask := congrArg Test.mask h.test
    by_cases hw : c = '?'
    case pos =>
      obtain rfl := hw
      exact {
        test  := by simp [Test.push, Alphabet.digit, hkey, hmask, ha.wild]
        shift := by have := h.shift; simp only [if_true, hs, hlen]; omega
        low   := by simpa [hs, Alphabet.digit] using h.low.push_none (w := a.bits)
      }
    case neg =>
      exact {
        test  := by simp [Test.push, Alphabet.digit, hkey, hmask, hw, ha.value c hv, ha.ones]
        shift := by simp [hw]
        low   := fun i hi => by simp [hw] at hi
      }

theorem characters {p : List (Option (BitVec a.bits))} (ha : a.Lawful) (h : Encodes p d)
    (hl : a.bits * (p.length + cs.length) < 64) (he : a.characters d cs = .ok d') :
    Encodes (p ++ a.pattern cs) d' := by
  induction cs generalizing p d
  case nil =>
    cases he
    rwa [Alphabet.pattern_nil, List.append_nil]
  case cons c cs hi =>
    rw [Alphabet.characters_cons] at he
    cases hd : a.character d c
    case error => simp [hd, bind, Except.bind] at he
    case ok d₁ =>
      rw [hd] at he
      rw [List.length_cons] at hl
      by_cases hc : c = ' '
      case pos =>
        rw [Alphabet.character, if_neg (not_not.mpr hc)] at hd
        cases hd
        rw [hc, Alphabet.pattern_space]
        exact hi h (by rw [Nat.mul_add] at hl ⊢; exact Nat.lt_of_le_of_lt (Nat.add_le_add_left
          (Nat.mul_le_mul_left _ (Nat.le_succ _)) _) hl) he
      case neg =>
        rw [Alphabet.pattern_cons hc, List.append_cons]
        refine hi (h.character ha hc ?_ hd) ?_ he
        case refine_1 => exact Nat.lt_of_le_of_lt (Nat.mul_le_mul_left _ (by omega)) hl
        case refine_2 =>
          rw [List.length_append, List.length_singleton]
          exact Nat.lt_of_le_of_lt (Nat.mul_le_mul_left _ (by omega)) hl

-- The shifted values test the same bits as the local variables.
theorem test_iff {p : List (Option (BitVec a.bits))} {x : BitVec 64} (h : Encodes p d) (hl : a.bits * p.length ≤ 64) :
    Decoded.test { key := d.key >>> d.shift, mask := d.mask >>> d.shift, shift := d.shift } x = true ↔
      Matches p x := by
  have hkey : d.key = (Test.ofPattern p : Test 64).key := congrArg Test.key h.test
  have hmask : d.mask = (Test.ofPattern p : Test 64).mask := congrArg Test.mask h.test
  rw [Decoded.test, beq_iff_eq, hkey, hmask, ← Test.ofPattern_accepts_iff hl]
  exact Test.shift_accepts_iff h.low

end Encodes

theorem length_pattern_le : (a.pattern str).length ≤ str.length := by
  rw [Alphabet.pattern, List.length_map]
  exact List.length_filter_le ..

-- The test of a decoded pattern, for either variant.
theorem test_finish_unroll_iff {n : Nat} {x : BitVec 64} (ha : a.Lawful) (hn : a.bits * n ≤ 64) (hb : 0 < a.bits)
    (h : finish (unroll (macro1 a str str.length) (List.range' 0 n) ⟨0, 0, 0⟩) = .ok d) :
    d.test x = true ↔ Matches (a.pattern str) x := by
  have ⟨hl, d₁, hc, hd⟩ := finish_unroll_iff.mp h
  have hlt : a.bits * str.length < 64 := Nat.lt_of_lt_of_le (Nat.mul_lt_mul_of_pos_left hl hb) hn
  have he : Encodes (a.pattern str) d₁ := Encodes.nil.characters ha (by simpa using hlt) hc
  rw [hd]
  exact he.test_iff (Nat.le_of_lt (Nat.lt_of_le_of_lt (Nat.mul_le_mul_left _ length_pattern_le) hlt))

theorem binary_lawful : binary.Lawful where
  ones      := by decide
  wild      := by decide
  value c _ := by
    simp only [binary]
    split <;> decide

-- What the digits of a word are written as.
def Alphabet.Written (a : Alphabet) (written : BitVec a.bits → Char) : Prop :=
  ∀ c, a.valid c → c ≠ '?' → ∀ v, (a.value c).setWidth a.bits = v ↔ c = written v

theorem binary_written : binary.Written fun v => if v.getLsbD 0 then '1' else '0' := by
  intro c hc hw v
  obtain rfl | rfl : c = '0' ∨ c = '1' := by simpa [binary, hw] using hc
  all_goals revert v; decide

theorem char_cases {P : Char → Prop} {m n : Nat} (h : Char.ofNat m ≤ c ∧ c ≤ Char.ofNat n)
    (hm : (Char.ofNat m).toNat = m) (hn : (Char.ofNat n).toNat = n)
    (hp : ∀ k ≤ n, m ≤ k → P (Char.ofNat k)) : P c := by
  rw [← Char.ofNat_toNat c]
  exact hp _ (hn ▸ h.right) (hm ▸ h.left)

theorem hexadecimal_cases {P : Char → Prop} (hc : hexadecimal.valid c) (hw : c ≠ '?')
    (digit : ∀ k ≤ '9'.toNat, '0'.toNat ≤ k → P (.ofNat k)) (letter : ∀ k ≤ 'f'.toNat, 'a'.toNat ≤ k → P (.ofNat k)) :
    P c := by
  obtain h | h : ('0' ≤ c ∧ c ≤ '9') ∨ ('a' ≤ c ∧ c ≤ 'f') := by simpa [hexadecimal, hw] using hc
  case inl => exact char_cases h rfl rfl digit
  case inr => exact char_cases h rfl rfl letter

theorem hexadecimal_written : hexadecimal.Written fun v => v.toNat.digitChar := by
  intro c hc hw
  refine hexadecimal_cases
    (P := fun c => ∀ v : BitVec 4, (hexadecimal.value c).setWidth 4 = v ↔ c = v.toNat.digitChar) hc hw ?_ ?_
  all_goals decide

theorem hexadecimal_lawful : hexadecimal.Lawful where
  ones       := by decide
  wild       := by decide
  value c hc := by
    by_cases hw : c = '?'
    case pos => rw [hw]; decide
    case neg =>
      refine hexadecimal_cases
        (P := fun c => ((hexadecimal.value c).setWidth 4).setWidth 64 = hexadecimal.value c) hc hw ?_ ?_
      all_goals decide

-- The characters that count are wildcards or show the digits of a word, the last one its digit 0.
def Shows (str : List Char) (written : Nat → Char) : Prop :=
  ∀ i (hi : i < (significant str).length), (significant str).get ⟨i, hi⟩ = '?' ∨
    (significant str).get ⟨i, hi⟩ = written ((significant str).length - 1 - i)

theorem matches_iff_shows {written : BitVec a.bits → Char} {x : BitVec 64} (hw : a.Written written)
    (h : ∀ c ∈ significant str, a.valid c) :
    Matches (a.pattern str) x ↔ Shows str fun j => written (Bits.digit a.bits x j) := by
  simp only [Matches, Shows, Alphabet.pattern, List.length_map, List.get_eq_getElem, List.getElem_map]
  refine forall₂_congr fun i hi => ?_
  have hv := h _ (List.getElem_mem hi)
  by_cases hc : (significant str)[i] = '?'
  case pos => simp [Alphabet.digit, hc]
  case neg => simp [Alphabet.digit, hc, hw _ hv hc]

theorem Shows.congr {written written' : Nat → Char}
    (h : ∀ j < (significant str).length, written j = written' j) : Shows str written ↔ Shows str written' := by
  refine forall₂_congr fun i hi => ?_
  rw [h _ (by omega)]

theorem significant_space : significant (' ' :: cs) = significant cs := (rfl)

theorem significant_cons (h : c ≠ ' ') : significant (c :: cs) = c :: significant cs := by
  simp [significant, h]

theorem Alphabet.characters_ok_iff : (∃ d', a.characters d cs = .ok d') ↔ ∀ c ∈ significant cs, a.valid c := by
  induction cs generalizing d
  case nil => simp [significant]
  case cons c cs hi =>
    rw [characters_cons, character]
    by_cases hc : c = ' '
    case pos =>
      rw [if_neg (not_not.mpr hc), hc, significant_space]
      exact hi
    case neg =>
      rw [if_pos hc, significant_cons hc, List.forall_mem_cons]
      split
      case isTrue hv => exact hi.trans (by simp [hv])
      case isFalse hv => exact ⟨nofun, fun h => absurd h.left hv⟩

-- The decoding returns for the strings of valid characters and spaces that are shorter than the unrolling limit.
theorem finish_unroll_ok_iff {n : Nat} :
    (∃ d', finish (unroll (macro1 a str str.length) (List.range' 0 n) d) = .ok d') ↔
      str.length < n ∧ ∀ c ∈ significant str, a.valid c := by
  simp only [finish_unroll_iff, ← a.characters_ok_iff (d := d)]
  exact ⟨fun ⟨_, hl, d₁, hd, _⟩ => ⟨hl, d₁, hd⟩, fun ⟨hl, d₁, hd⟩ => ⟨_, hl, d₁, hd, rfl⟩⟩

theorem digit_congr {w j n : Nat} {x y : BitVec 64} (h : ∀ i < w * n, x.getLsbD i = y.getLsbD i) (hj : j < n) :
    Bits.digit w x j = Bits.digit w y j := by
  refine BitVec.eq_of_getLsbD_eq fun i hi => ?_
  rw [getLsbD_digit hi, getLsbD_digit hi]
  exact h _ (Nat.lt_of_lt_of_le (Nat.add_lt_add_left hi _) (by rw [← Nat.mul_succ]; exact Nat.mul_le_mul_left w hj))

-- The test of a decoded pattern, for either variant, and the bits that it does not look at.
theorem test_finish_unroll {n : Nat} {x : BitVec 64} {written : BitVec a.bits → Char} (ha : a.Lawful)
    (hw : a.Written written) (hn : a.bits * n ≤ 64) (hb : 0 < a.bits)
    (h : finish (unroll (macro1 a str str.length) (List.range' 0 n) ⟨0, 0, 0⟩) = .ok d) :
    (d.test x = true ↔ Shows str fun j => written (Bits.digit a.bits x j)) ∧
    ∀ y : BitVec 64, (∀ j < a.bits * (significant str).length, x.getLsbD j = y.getLsbD j) → d.test x = d.test y := by
  have hv := (finish_unroll_ok_iff.mp ⟨d, h⟩).right
  have ht {x} : d.test x = true ↔ Shows str fun j => written (Bits.digit a.bits x j) :=
    (test_finish_unroll_iff ha hn hb h).trans (matches_iff_shows hw hv)
  refine ⟨ht, fun y hy => ?_⟩
  rw [Bool.eq_iff_iff, ht, ht]
  exact Shows.congr fun j hj => by rw [digit_congr hy hj]

theorem pattern_decode_ok_iff : (∃ d, pattern_decode str str.length = .ok d) ↔
    str.length < 64 ∧ ∀ c ∈ significant str, c = '0' ∨ c = '1' ∨ c = '?' := by
  simp only [pattern_decode, macro64_eq, finish_unroll_ok_iff, binary, decide_eq_true_eq]

theorem pattern_decode_hex_ok_iff : (∃ d, pattern_decode_hex str str.length = .ok d) ↔
    str.length < 16 ∧ ∀ c ∈ significant str, ('0' ≤ c ∧ c ≤ '9') ∨ ('a' ≤ c ∧ c ≤ 'f') ∨ c = '?' := by
  simp only [pattern_decode_hex, macro16_eq, finish_unroll_ok_iff, hexadecimal, decide_eq_true_eq]

-- Patterns mean what they show, and the bits of an instruction above a pattern do not matter.
theorem pattern_decode_correct (str : List Char) (x : BitVec 64) :
    (∀ d, pattern_decode str str.length = .ok d →
      (d.test x = true ↔ Shows str fun j => if x.getLsbD j then '1' else '0') ∧
      ∀ y : BitVec 64, (∀ j < (significant str).length, x.getLsbD j = y.getLsbD j) → d.test x = d.test y) ∧
    ∀ d, pattern_decode_hex str str.length = .ok d →
      (d.test x = true ↔ Shows str fun j => ((x >>> (4 * j)).toNat % 16).digitChar) ∧
      ∀ y : BitVec 64, (∀ j < 4 * (significant str).length, x.getLsbD j = y.getLsbD j) → d.test x = d.test y := by
  constructor
  case left =>
    intro d h
    rw [pattern_decode, macro64_eq] at h
    have := test_finish_unroll (x := x) binary_lawful binary_written (by decide) (by decide) h
    simpa [getLsbD_digit, binary, -BitVec.getLsbD_eq_getElem] using this
  case right =>
    intro d h
    rw [pattern_decode_hex, macro16_eq] at h
    have := test_finish_unroll (x := x) hexadecimal_lawful hexadecimal_written (by decide) (by decide) h
    simpa [Bits.digit, hexadecimal] using this

theorem pattern_decode_correct_lbu :
    (Decoded.test ⟨0x4003, 0x707f, 0⟩ 0x5c503 = true ↔
      Shows "??????? ????? ????? 100 ????? 00000 11".toList fun j =>
        if (0x5c503 : BitVec 64).getLsbD j then '1' else '0') ∧
    (Decoded.test ⟨0x1a0f, 0xff0f, 8⟩ 0x1a3f77 = true ↔
      Shows "1a ?f??".toList fun j => (((0x1a3f77 : BitVec 64) >>> (4 * j)).toNat % 16).digitChar) :=
  ⟨((pattern_decode_correct _ 0x5c503).left _ (by decide)).left,
    ((pattern_decode_correct _ 0x1a3f77).right _ (by decide)).left⟩

end Nemu
