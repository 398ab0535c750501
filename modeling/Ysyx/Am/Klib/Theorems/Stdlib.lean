import Ysyx.Am.Klib.Stdlib
import Ysyx.Nemu.Theorems.Grammar

namespace Am.Klib

open Nemu (Text White Numeral Ends digit? digits isspace)

variable {w p s t : Text} {n v d : Nat} {c : Byte}

section Accumulate

theorem digit?_ten : ∀ c : Byte, digit? 10 c = if 0x30 ≤ c ∧ c ≤ 0x39 then some (c.toNat - 0x30) else none := by
  decide

theorem accumulate_of_not_digit (h : digit? 10 c = none) {x : Int} : accumulate x (c :: s) = some x := by
  rw [digit?_ten] at h
  rw [accumulate, if_neg fun hc => by rw [if_pos hc] at h; cases h]

-- `x * 10 + *nptr - '0'` is evaluated from the left, so the code of the digit is added to `x * 10` before the code
-- of '0' is taken away.
theorem accumulate_digit (h : digit? 10 c = some d) :
    accumulate v (c :: s) = if v * 10 + d + 48 < 2 ^ 31 then accumulate (v * 10 + d : Nat) s else none := by
  rw [digit?_ten] at h
  split at h
  case isFalse => cases h
  case isTrue hc =>
    have hd : c.toNat = d + 48 := by
      have := hc.left
      simp only [BitVec.le_def] at this
      grind
    rw [accumulate, if_pos hc, hd]
    by_cases ho : v * 10 + d + 48 < 2 ^ 31
    case pos =>
      have hm : Signed.mul 32 v 10 = some (v * 10 : Int) := Signed.checked_of_fits (by constructor <;> omega)
      have ha : Signed.add 32 (v * 10) (d + 48 : Nat) = some (v * 10 + (d + 48 : Nat) : Int) :=
        Signed.checked_of_fits (by constructor <;> omega)
      have hs : Signed.sub 32 (v * 10 + (d + 48 : Nat)) 0x30 = some ((v * 10 + d : Nat) : Int) :=
        (Signed.checked_of_fits (by constructor <;> omega)).trans <| congrArg some (by omega)
      rw [if_pos ho, hm, Option.bind_eq_bind, Option.bind_some, ha, Option.bind_some, hs, Option.bind_some]
    case neg =>
      have ha : Signed.add 32 (v * 10) (d + 48 : Nat) = none := Signed.checked_of_not_fits fun h => by omega
      rw [if_neg ho, Option.bind_eq_bind]
      by_cases hf : v * 10 < 2 ^ 31
      case pos =>
        have hm : Signed.mul 32 v 10 = some (v * 10 : Int) := Signed.checked_of_fits (by constructor <;> omega)
        rw [hm, Option.bind_some, ha]
        rfl
      case neg =>
        have hm : Signed.mul 32 v 10 = none := Signed.checked_of_not_fits fun h => by omega
        rw [hm]
        rfl

theorem le_digits : v ≤ (digits 10 v s).fst := by
  induction s generalizing v
  case nil => exact Nat.le_refl _
  case cons c s hi =>
    rw [digits]
    split
    case h_1 d _ => exact .trans (by omega) (hi (v := v * 10 + d))
    case h_2 => exact Nat.le_refl _

theorem accumulate_eq (h : v + 48 < 2 ^ 31) : accumulate v s =
    if (digits 10 v s).fst + 48 < 2 ^ 31 then some ((digits 10 v s).fst : Int) else none := by
  induction s generalizing v
  case nil => simp only [accumulate, digits, h, if_true]
  case cons c s hi =>
    rw [digits]
    cases hc : digit? 10 c
    case none => rw [accumulate_of_not_digit hc, if_pos h]
    case some d =>
      rw [accumulate_digit hc]
      by_cases hd : v * 10 + d + 48 < 2 ^ 31
      case pos => rw [if_pos hd, hi hd]
      case neg =>
        have hl : v * 10 + d ≤ (digits 10 (v * 10 + d) s).fst := le_digits
        rw [if_neg hd]
        exact (if_neg fun hs => hd <| Nat.lt_of_le_of_lt (Nat.add_le_add_right hl 48) hs).symm

end Accumulate

section Atoi

-- The value of digits after a sign.
def signed (p : Text) (n : Nat) : Int :=
  if p = [0x2d] then -n else n

theorem signed_nil : signed [] n = n :=
  rfl

theorem digits_numeral (hn : Numeral 10 s n) (ht : Ends 10 t) : digits 10 0 (s ++ t) = (n, t) := by
  have ⟨_, ds, hd, hs⟩ := hn
  rw [Nemu.digits_append hd ht, hs, Nat.zero_mul, Nat.zero_add]

-- Spaces, and digits right after them.
theorem atoi_digits (hw : ∀ c ∈ w, c = 0x20) (hn : Numeral 10 s n) (ht : Ends 10 t) :
    atoi (w ++ s ++ t) = if n + 48 < 2 ^ 31 then some (n : Int) else none := by
  have ⟨c, s', hs, hc⟩ := hn.head
  have hd : (w ++ s ++ t).dropWhile (· == 0x20) = s ++ t := by
    have hn : c ≠ 0x20 := by rintro rfl; revert hc; decide
    rw [List.append_assoc, List.dropWhile_append_of_pos (by simpa using hw), hs, List.cons_append,
      List.dropWhile_cons_of_neg (by simpa using hn)]
  have ha := accumulate_eq (v := 0) (s := s ++ t) (by decide)
  rw [atoi, hd]
  rwa [digits_numeral hn ht] at ha

-- Anything else after the spaces.
theorem atoi_of_not_digit (hc : c ≠ 0x20) (hd : digit? 10 c = none) (hw : ∀ c ∈ w, c = 0x20) :
    atoi (w ++ c :: s) = some 0 := by
  rw [atoi, List.dropWhile_append_of_pos (by simpa using hw), List.dropWhile_cons_of_neg (by simpa using hc)]
  exact accumulate_of_not_digit hd

theorem not_digit_of_isspace : ∀ c : Byte, isspace c = true → digit? 10 c = none := by
  decide

-- The first white space that is no space.
theorem atoi_of_white (hw : White w) (h : ¬∀ c ∈ w, c = 0x20) : atoi (w ++ s) = some 0 := by
  induction w
  case nil => exact absurd nofun h
  case cons c w hi =>
    by_cases hc : c = 0x20
    case pos =>
      have hr : atoi (c :: w ++ s) = atoi (w ++ s) := by
        rw [atoi, atoi, List.cons_append, List.dropWhile_cons_of_pos (by simpa using hc)]
      rw [hr]
      refine hi (fun d hd => hw d <| List.mem_cons_of_mem _ hd) fun ha => h fun d hd => ?_
      cases hd
      case head => exact hc
      case tail hd => exact ha d hd
    case neg =>
      have hd := not_digit_of_isspace c <| hw c List.mem_cons_self
      exact atoi_of_not_digit (w := []) hc hd nofun

theorem signed_eq_zero_iff : signed p n = 0 ↔ n = 0 := by
  unfold signed
  split <;> omega

theorem zero_iff {r : Option Int} {P : Prop} (h : r = some 0) (hp : ¬P) :
    r = some (signed p n) ↔ n = 0 ∨ P := by
  rw [h, Option.some_inj, eq_comm, signed_eq_zero_iff, or_iff_left hp]

-- White space `w`, a sign `p`, the digits `s` of `n` and a rest `t`. With a sign or with white space other than
-- spaces the result is 0. Otherwise the code of '0' has to be added to the value without an overflow.
theorem atoi_eq_iff (hw : White w) (hp : p = [] ∨ p = [0x2b] ∨ p = [0x2d]) (hn : Numeral 10 s n) (ht : Ends 10 t) :
    atoi (w ++ p ++ s ++ t) = some (signed p n) ↔
      n = 0 ∨ (∀ c ∈ w, c = 0x20) ∧ p = [] ∧ n + 48 < 2 ^ 31 := by
  by_cases hs : ∀ c ∈ w, c = 0x20
  case neg =>
    refine zero_iff ?_ fun h => hs h.left
    rw [List.append_assoc, List.append_assoc]
    exact atoi_of_white hw hs
  case pos =>
    obtain rfl | hc := hp
    case inl =>
      rw [List.append_nil, atoi_digits hs hn ht, signed_nil]
      by_cases hb : n + 48 < 2 ^ 31
      case pos =>
        rw [if_pos hb]
        exact iff_of_true rfl (.inr ⟨hs, rfl, hb⟩)
      case neg =>
        rw [if_neg hb]
        refine iff_of_false nofun fun h => ?_
        cases h
        case inl h => exact hb (by omega)
        case inr h => exact hb h.right.right
    case inr =>
      refine zero_iff ?_ fun h => by obtain rfl | rfl := hc <;> cases h.right.left
      rw [List.append_assoc, List.append_assoc]
      obtain rfl | rfl := hc
      case inl => exact atoi_of_not_digit (by decide) (by decide) hs
      case inr => exact atoi_of_not_digit (by decide) (by decide) hs

theorem atoi_eq_iff_space_forty_two :
    atoi ([0x20] ++ [] ++ [0x34, 0x32] ++ []) = some (signed [] 42) ↔
      42 = 0 ∨ (∀ c ∈ ([0x20] : Text), c = 0x20) ∧ ([] : Text) = [] ∧ 42 + 48 < 2 ^ 31 :=
  atoi_eq_iff (by unfold White; decide) (.inl rfl) ⟨by decide, [4, 2], by decide, by decide⟩ nofun

-- The largest number of the type, and the number 1 after a tab, with a plus and with a minus.
theorem atoi_wrong :
    (Numeral 10 [0x32, 0x31, 0x34, 0x37, 0x34, 0x38, 0x33, 0x36, 0x34, 0x37] 2147483647 ∧
      Signed.Fits 32 (signed [] 2147483647) ∧
      atoi [0x32, 0x31, 0x34, 0x37, 0x34, 0x38, 0x33, 0x36, 0x34, 0x37] = none) ∧
    Numeral 10 [0x31] 1 ∧
    (White [0x09] ∧ signed [] 1 = 1 ∧ atoi [0x09, 0x31] = some 0) ∧
    (signed [0x2b] 1 = 1 ∧ atoi [0x2b, 0x31] = some 0) ∧
    (signed [0x2d] 1 = -1 ∧ atoi [0x2d, 0x31] = some 0) := by
  refine ⟨⟨⟨by decide, [2, 1, 4, 7, 4, 8, 3, 6, 4, 7], by decide, by decide⟩, by decide, by decide⟩,
    ⟨by decide, [1], by decide, by decide⟩, ⟨by unfold White; decide, by decide, by decide⟩, by decide, by decide⟩

end Atoi

end Am.Klib
