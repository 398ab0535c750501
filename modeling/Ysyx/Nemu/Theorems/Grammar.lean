import Mathlib.Data.List.TakeWhile
import Ysyx.Nemu.Grammar
import Ysyx.Nemu.Print
import Ysyx.Nemu.Theorems.Cpu

-- Which arguments the commands of the debugger accept.

namespace Nemu

variable {D R : Type} {sys : System D R} {base n : Nat} {s t x w p text : Text} {ds : List Nat} {c : Byte}

section Digits

-- The digits end where `t` begins.
def Ends (base : Nat) (t : Text) : Prop :=
  ∀ c ∈ t.head?, digit? base c = none

theorem digits_of_ends (h : Ends base t) (v : Nat) : digits base v t = (v, t) := by
  cases t
  case nil => rfl
  case cons c t => rw [digits, h c rfl]

theorem digits_append (h : s.map (digit? base) = ds.map some) (ht : Ends base t) (v : Nat) :
    digits base v (s ++ t) = (v * base ^ ds.length + Nat.ofDigits base ds.reverse, t) := by
  induction ds generalizing s v
  case nil =>
    have hs : s = [] := by simpa using h
    rw [hs, List.nil_append, digits_of_ends ht]
    simp
  case cons d ds hi =>
    cases s
    case nil => cases h
    case cons c s =>
      have ⟨hc, hs⟩ := List.cons.inj h
      rw [List.cons_append, digits, hc]
      simp only
      rw [hi hs, List.reverse_cons, Nat.ofDigits_append, Nat.ofDigits_singleton, List.length_reverse, List.length_cons,
        Nat.pow_succ]
      congr 1
      ring

theorem exists_digits (base : Nat) (s : Text) :
    ∃ x t, s = x ++ t ∧ (∃ ds : List Nat, x.map (digit? base) = ds.map some) ∧ Ends base t := by
  induction s
  case nil => exact ⟨[], [], rfl, ⟨[], rfl⟩, nofun⟩
  case cons c s hi =>
    have ⟨x, t, hs, ⟨ds, hd⟩, ht⟩ := hi
    cases hc : digit? base c
    case none => exact ⟨[], c :: s, rfl, ⟨[], rfl⟩, fun _ h => by cases h; exact hc⟩
    case some d => exact ⟨c :: x, t, by rw [hs, List.cons_append], ⟨d :: ds, by simp [hc, hd]⟩, ht⟩

theorem Numeral.head (h : Numeral base s n) : ∃ c s', s = c :: s' ∧ (digit? base c).isSome = true := by
  have ⟨hn, ds, hd, _⟩ := h
  cases s
  case nil => exact absurd rfl hn
  case cons c s =>
    cases ds
    case nil => cases hd
    case cons d ds => exact ⟨c, s, rfl, by rw [(List.cons.inj hd).left]; rfl⟩

theorem number_append (h : Numeral base s n) (ht : Ends base t) : number base (s ++ t) = some (n, t) := by
  have ⟨c, s', hs, hc⟩ := h.head
  have ⟨_, ds, hd, hn⟩ := h
  have hx := digits_append hd ht 0
  subst hs
  rw [List.cons_append] at hx ⊢
  rw [number, if_pos hc, hx, hn, Nat.zero_mul, Nat.zero_add]

theorem number_ok (h : number base s = some (n, t)) : ∃ x, s = x ++ t ∧ Numeral base x n ∧ Ends base t := by
  have ⟨x, t', hs, ⟨ds, hd⟩, ht⟩ := exists_digits base s
  have hx := digits_append hd ht 0
  rw [← hs] at hx
  cases s
  case nil => cases h
  case cons c s =>
    rw [number] at h
    split at h
    case isTrue hc =>
      rw [hx, Nat.zero_mul, Nat.zero_add] at h
      cases h
      refine ⟨x, hs, ⟨fun hn => ?_, ds, hd, rfl⟩, ht⟩
      rw [hn, List.nil_append] at hs
      rw [ht c (hs ▸ rfl)] at hc
      cases hc
    case isFalse => cases h

end Digits

section Characters

-- What may follow a number: a space, a plus or nothing.
def Follows (t : Text) : Prop :=
  ∀ c ∈ t.head?, isspace c = true ∨ c = 0x2b

theorem not_digit_of_follows : ∀ c : Byte, isspace c = true ∨ c = 0x2b →
    (digit? 8 c = none ∧ digit? 10 c = none ∧ digit? 16 c = none) ∧ ¬(c = 0x78 ∨ c = 0x58) := by
  decide

theorem not_sign_of_digit : ∀ c : Byte, (digit? 10 c).isSome = true → isspace c = false ∧ c ≠ 0x2b ∧ c ≠ 0x2d := by
  decide

theorem digit_of_octal : ∀ c : Byte, (digit? 8 c).isSome = true →
    (digit? 10 c).isSome = true ∧ ¬(c = 0x78 ∨ c = 0x58) := by
  decide

theorem Follows.ends (h : Follows t) : Ends 8 t ∧ Ends 10 t ∧ Ends 16 t :=
  ⟨fun c hc => (not_digit_of_follows c (h c hc)).left.left,
   fun c hc => (not_digit_of_follows c (h c hc)).left.right.left,
   fun c hc => (not_digit_of_follows c (h c hc)).left.right.right⟩

theorem White.nil : White [] :=
  nofun

theorem White.follows (h : White w) : Follows w := by
  cases w
  case nil => nofun
  case cons c w => exact fun _ hc => by cases hc; exact .inl (h c List.mem_cons_self)

theorem skip_spaces_white (hw : White w) (h : ∀ c ∈ s.head?, isspace c = false) : skip_spaces (w ++ s) = s := by
  rw [skip_spaces, List.dropWhile_append_of_pos hw]
  cases s
  case nil => rfl
  case cons c s => exact List.dropWhile_cons_of_neg (by simp [h c rfl])

theorem exists_spaces (s : Text) : ∃ w, s = w ++ skip_spaces s ∧ White w :=
  ⟨s.takeWhile isspace, List.takeWhile_append_dropWhile.symm, fun _ hc => List.mem_takeWhile_imp hc⟩

theorem skip_spaces_nil_iff : skip_spaces s = [] ↔ White s := by
  rw [skip_spaces, List.dropWhile_eq_nil_iff]
  rfl

end Characters

section Strtoull

-- `strtoull` without a sign.
def unsigned (base : Nat) (s : Text) : Option (Nat × Text) :=
  match base, s with
  | 0, 0x30#8 :: x :: s =>
    if x = 0x78 ∨ x = 0x58 then
      match number 16 s with
      | some r => some r
      | none   => some (0, x :: s)
    else
      number 8 (0x30 :: x :: s)
  | 0, 0x30#8 :: s => number 8 (0x30 :: s)
  | 0, s           => number 10 s
  | base, s        => number base s

theorem strtoull_plus : strtoull (0x2b :: s) base = unsigned base s :=
  rfl

theorem strtoull_of_head (h : ∀ c ∈ s.head?, c ≠ 0x2b) : strtoull s base = unsigned base s := by
  unfold strtoull
  split
  case h_1 => exact absurd rfl (h _ rfl)
  case h_2 => rfl

-- The numbers that are read with `base` have the notation `L`, and `E` holds of what follows them.
structure Notation (base : Nat) (L : Text → Nat → Prop) (E : Text → Prop) : Prop where
  head   : ∀ s n, L s n → ∃ c s', s = c :: s' ∧ (digit? 10 c).isSome = true
  append : ∀ s n t, L s n → Follows t → unsigned base (s ++ t) = some (n, t)
  ok     : ∀ s n t, unsigned base s = some (n, t) → ∃ x, s = x ++ t ∧ L x n ∧ E t

theorem decimal_notation : Notation 10 (Numeral 10) (Ends 10) where
  head _ _ h         := h.head
  append _ _ _ h ht  := number_append h ht.ends.right.left
  ok _ _ _ h         := number_ok h

theorem unsigned_of_head (h : ∀ c ∈ s.head?, c ≠ 0x30) : unsigned 0 s = number 10 s := by
  unfold unsigned
  split
  case h_1 => exact absurd rfl (h _ rfl)
  case h_2 => exact absurd rfl (h _ rfl)
  case h_3 => rfl
  case h_4 h₀ _ _ => exact absurd rfl h₀

theorem unsigned_hexadecimal {c : Byte} (hc : c = 0x78 ∨ c = 0x58) :
    unsigned 0 (0x30 :: c :: s) = match number 16 s with | some r => some r | none => some (0, c :: s) :=
  if_pos hc

theorem unsigned_octal (h : ∀ c ∈ s.head?, ¬(c = 0x78 ∨ c = 0x58)) : unsigned 0 (0x30 :: s) = number 8 (0x30 :: s) := by
  cases s
  case nil => rfl
  case cons c s => exact if_neg (h c rfl)

theorem address_append (h : Address s n) (ht : Follows t) : unsigned 0 (s ++ t) = some (n, t) := by
  cases h
  case decimal c s hc h =>
    rw [List.cons_append, unsigned_of_head (fun _ he => by cases he; exact hc), ← List.cons_append]
    exact number_append h ht.ends.right.left
  case octal s h =>
    have hx : ∀ c ∈ (s ++ t).head?, ¬(c = 0x78 ∨ c = 0x58) := by
      intro c hc
      have ⟨hne, ds, hd, hn⟩ := h
      cases s
      case nil => exact (not_digit_of_follows c (ht c hc)).right
      case cons c' s =>
        have he : c' = c := by simpa using hc
        subst he
        obtain _ | ⟨_, _ | ⟨d, ds⟩⟩ := ds
        case nil => cases hd
        case cons.nil => cases hd
        case cons.cons =>
          have hd : digit? 8 c' = some d := (List.cons.inj (List.cons.inj hd).right).left
          exact (digit_of_octal c' (hd ▸ rfl)).right
    rw [List.cons_append, unsigned_octal hx, ← List.cons_append]
    exact number_append h ht.ends.left
  case hexadecimal x s hx h =>
    rw [List.cons_append, List.cons_append, unsigned_hexadecimal hx, number_append h ht.ends.right.right]

theorem zero_address : Address [0x30] 0 :=
  .octal ⟨nofun, [0], rfl, rfl⟩

theorem address_ok (h : unsigned 0 s = some (n, t)) : ∃ x, s = x ++ t ∧ Address x n := by
  by_cases hz : ∀ c ∈ s.head?, c ≠ 0x30
  case pos =>
    rw [unsigned_of_head hz] at h
    have ⟨x, hs, hx, _⟩ := number_ok h
    have ⟨c, x', he, _⟩ := hx.head
    subst hs he
    exact ⟨_, rfl, .decimal (hz c rfl) hx⟩
  case neg =>
    have ⟨s', hs⟩ : ∃ s', s = 0x30 :: s' := by
      cases s
      case nil => exact absurd nofun hz
      case cons c s' => exact ⟨s', by simpa using hz⟩
    subst hs
    by_cases hx : ∀ c ∈ s'.head?, ¬(c = 0x78 ∨ c = 0x58)
    case pos =>
      rw [unsigned_octal hx] at h
      have ⟨x, hs, hn, _⟩ := number_ok h
      have ⟨c, x', he, _⟩ := hn.head
      subst he
      cases hs
      exact ⟨_, rfl, .octal hn⟩
    case neg =>
      have ⟨c, s, hs, hc⟩ : ∃ c s, s' = c :: s ∧ (c = 0x78 ∨ c = 0x58) := by
        cases s'
        case nil => exact absurd nofun hx
        case cons c s => exact ⟨c, s, rfl, by simpa [imp_iff_not_or] using hx⟩
      subst hs
      rw [unsigned_hexadecimal hc] at h
      split at h
      case h_1 r hr =>
        cases h
        have ⟨x, hs, hx, _⟩ := number_ok hr
        exact ⟨0x30 :: c :: x, by rw [hs]; rfl, .hexadecimal hc hx⟩
      case h_2 => cases h; exact ⟨_, rfl, zero_address⟩

theorem Address.head (h : Address s n) : ∃ c s', s = c :: s' ∧ (digit? 10 c).isSome = true := by
  cases h
  case decimal _ h => exact h.head
  case octal => exact ⟨_, _, rfl, rfl⟩
  case hexadecimal => exact ⟨_, _, rfl, rfl⟩

theorem address_notation : Notation 0 Address fun _ => True where
  head _ _           := Address.head
  append _ _ _ h ht  := address_append h ht
  ok _ _ _ h         := have ⟨x, hs, hx⟩ := address_ok h; ⟨x, hs, hx, trivial⟩

end Strtoull

section Parse

variable {L : Text → Nat → Prop} {E : Text → Prop} {v : BitVec 64}

theorem head_append {c : Byte} {s' : Text} (hs : s = c :: s') : ∀ c' ∈ (s ++ t).head?, c' = c := by
  rw [hs]
  exact fun _ h => by cases h; rfl

theorem parse_append (hl : Notation base L E) (hw : White w) (hp : Sign p) (hs : L s n) (ht : Follows t)
    (hn : n < 2 ^ 64) : parse_uint64 (some (w ++ p ++ s ++ t)) base = some (BitVec.ofNat 64 n, t) := by
  have ⟨c, s', he, hc⟩ := hl.head s n hs
  have ⟨h₁, h₂, h₃⟩ := not_sign_of_digit c hc
  have hd := head_append (t := t) he
  have hk : skip_spaces (w ++ p ++ s ++ t) = p ++ s ++ t := by
    rw [List.append_assoc, List.append_assoc, skip_spaces_white hw ?_, List.append_assoc]
    intro c' hc'
    cases hp
    case inl hp => subst hp; exact hd c' hc' ▸ h₁
    case inr hp => subst hp; cases hc'; rfl
  have hr : strtoull (p ++ s ++ t) base = some (n, t) := by
    cases hp
    case inl hp =>
      subst hp
      rw [List.nil_append, strtoull_of_head fun c' hc' => hd c' hc' ▸ h₂]
      exact hl.append s n t hs ht
    case inr hp =>
      subst hp
      exact hl.append s n t hs ht
  have hh : ¬((p ++ s ++ t).head? = none ∨ (p ++ s ++ t).head? = some 0x2d) := by
    cases hp
    case inl hp => subst hp he; simpa using h₃
    case inr hp => subst hp; simp
  rw [parse_uint64]
  simp only [hk, if_neg hh, hr, if_pos hn]

theorem parse_ok (hl : Notation base L E) (h : parse_uint64 (some text) base = some (v, t)) :
    ∃ w p s n, text = w ++ p ++ s ++ t ∧ White w ∧ Sign p ∧ L s n ∧ n < 2 ^ 64 ∧ v = BitVec.ofNat 64 n ∧ E t := by
  have ⟨w, hw, hs⟩ := exists_spaces text
  rw [parse_uint64] at h
  split at h
  case isTrue => cases h
  split at h
  case h_1 => cases h
  case h_2 n t' hr =>
    split at h
    case isFalse => cases h
    case isTrue hn =>
      cases h
      by_cases hp : ∀ c ∈ (skip_spaces text).head?, c ≠ 0x2b
      case pos =>
        rw [strtoull_of_head hp] at hr
        have ⟨x, hx, hl, he⟩ := hl.ok _ _ _ hr
        exact ⟨w, [], x, n, by rw [hw, hx]; simp, hs, .inl rfl, hl, hn, rfl, he⟩
      case neg =>
        have ⟨y, hy⟩ : ∃ y, skip_spaces text = 0x2b :: y := by
          cases hc : skip_spaces text
          case nil => rw [hc] at hp; exact absurd nofun hp
          case cons c y => rw [hc] at hp; exact ⟨y, by simpa using hp⟩
        rw [hy, strtoull_plus] at hr
        have ⟨x, hx, hl, he⟩ := hl.ok _ _ _ hr
        exact ⟨w, [0x2b], x, n, by rw [hw, hy, hx]; simp, hs, .inr rfl, hl, hn, rfl, he⟩

end Parse

section Accept

variable {args : Option Text} {a : Nat}

theorem ofNat_ne_zero (h₀ : 0 < n) (hn : n < 2 ^ 64) : ¬BitVec.ofNat 64 n = 0 := by
  rw [← BitVec.toNat_inj]
  simp
  omega

theorem stepped_ok (h : StepArgs args n) : stepped args = .ok (BitVec.ofNat 64 n) := by
  cases args
  case none => cases h; rfl
  case some text =>
    obtain ⟨hw, hp, hs, hw', h₀, hn⟩ := h
    rw [stepped, parse_append decimal_notation hw hp hs hw'.follows hn]
    exact if_neg (not_or.mpr ⟨ofNat_ne_zero h₀ hn, not_not.mpr (skip_spaces_nil_iff.mpr hw')⟩)

theorem stepped_error (h : ∀ n, ¬StepArgs args n) :
    stepped args = .error "Usage: si [N] (N must be a positive integer)" := by
  cases args
  case none => exact absurd rfl (h 1)
  case some text =>
    rw [stepped]
    split
    case h_1 => rfl
    case h_2 v t hp =>
      have ⟨w, p, s, n, ht, hw, hsg, hs, hn, hv, _⟩ := parse_ok decimal_notation hp
      refine if_pos (by_contra fun hc => h n ?_)
      have ⟨h₀, hw'⟩ := not_or.mp hc
      have h₀ : n ≠ 0 := fun hz => h₀ (by rw [hv, hz]; rfl)
      have hw' := skip_spaces_nil_iff.mp (not_not.mp hw')
      rw [StepArgs, ht]
      exact .mk hw hsg hs hw' (Nat.pos_of_ne_zero h₀) hn

-- What `x` does with the numbers.
def ranged (n : BitVec 64) (start : Word) : Except String (BitVec 64 × Word) :=
  if n > (0xffffffff - start.setWidth 64) / 4 + 1 then .error "Memory range wraps around the virtual address space"
  else .ok (n, start)

theorem follows_of_separated {u q t : Text} (hu : White u) (hq : Sign q) (h : u ≠ [] ∨ q ≠ []) :
    Follows (u ++ q ++ t) := by
  cases u
  case cons c u => exact fun _ hc => by cases hc; exact .inl (hu c List.mem_cons_self)
  case nil =>
    have hq := hq.resolve_left (h.resolve_left (absurd rfl))
    rw [hq]
    exact fun _ hc => by cases hc; exact .inr rfl

theorem small_address (ha : a < 2 ^ 32) :
    ¬BitVec.ofNat 64 a > 0xffffffff ∧ (BitVec.ofNat 64 a).setWidth 32 = BitVec.ofNat 32 a := by
  refine ⟨?_, BitVec.eq_of_toNat_eq (by simp)⟩
  rw [gt_iff_lt, BitVec.lt_def, BitVec.toNat_ofNat, Nat.mod_eq_of_lt (by omega)]
  exact Nat.not_lt.mpr (Nat.le_of_lt_succ ha)

theorem examined_ok (h : ExamineArgs args n a) :
    examined args = ranged (BitVec.ofNat 64 n) (BitVec.ofNat 32 a) := by
  cases args
  case none => exact h.elim
  case some text =>
    obtain @⟨w, p, s, u, q, t, w', n, a, hw, hp, hs, hu, hq, ht, hw', hd, h₀, hn, ha⟩ := h
    have hf := parse_append (t := u ++ q ++ (t ++ w')) decimal_notation hw hp hs (follows_of_separated hu hq hd) hn
    have hr := parse_append address_notation hu hq ht hw'.follows (ha.trans (by decide))
    have ⟨hb, hm⟩ := small_address ha
    simp only [List.append_assoc] at hf hr ⊢
    simp only [examined, hf, hr, if_neg (ofNat_ne_zero h₀ hn), skip_spaces_nil_iff.mpr hw', hb, hm, ranged,
      ne_eq, not_true, or_self, if_false]

theorem examined_error (h : ∀ n a, ¬ExamineArgs args n a) :
    examined args = .error "Usage: x N ADDR (N must be a positive integer)" ∨
    examined args = .error "Usage: x N ADDR (ADDR must be a valid numeric address)" := by
  cases args
  case none => exact .inl rfl
  case some text =>
    rw [examined]
    split
    case h_1 => exact .inl rfl
    case h_2 v rest hp =>
    split
    case isTrue => exact .inl rfl
    case isFalse hz =>
    split
    case h_1 => exact .inr rfl
    case h_2 va tail hq =>
    have ⟨w, p, s, n, ht, hw, hsg, hs, hn, hv, he⟩ := parse_ok decimal_notation hp
    have ⟨u, q', t, a, ht', hu, hsg', ha, han, hva, _⟩ := parse_ok address_notation hq
    refine .inr (if_pos (by_contra fun hc => h n a ?_))
    have ⟨hw', hb⟩ := not_or.mp hc
    have h₀ : n ≠ 0 := fun h₀ => hz (by rw [hv, h₀]; rfl)
    rw [ExamineArgs, ht, ht']
    simp only [← List.append_assoc]
    refine .mk hw hsg hs hu hsg' ha (skip_spaces_nil_iff.mp (not_not.mp hw')) ?_ (Nat.pos_of_ne_zero h₀) hn ?_
    case refine_1 =>
      by_contra hne
      have ⟨hu, hq'⟩ := not_or.mp hne
      have ⟨c, t', htc, hd⟩ := ha.head
      rw [ht', not_not.mp hu, not_not.mp hq', List.nil_append, List.nil_append, htc] at he
      rw [he c rfl] at hd
      cases hd
    case refine_2 =>
      rw [hva, gt_iff_lt, BitVec.lt_def, BitVec.toNat_ofNat, Nat.mod_eq_of_lt han] at hb
      exact Nat.lt_of_not_le hb

end Accept

namespace Shell

variable {args : Option Text}

def usageSi : String := "Usage: si [N] (N must be a positive integer)"
def usagesX : List String :=
  ["Usage: x N ADDR (N must be a positive integer)", "Usage: x N ADDR (ADDR must be a valid numeric address)"]

-- The command `x` behind the test of its range.
def proceed (sys : System D R) : Except String (BitVec 64 × Word) → Shell D R Int
  | .ok (n, start) => do examine sys start 0 n.toNat; return 0
  | .error text    => do printf <| .message text; return 0

section Accept

variable {c : Console D R} {k : BitVec 64} {message : String}

theorem printf_run {line : Line} : printf line c = .ok () (c.printed line) := (rfl)

theorem cmd_si_of_ok (h : stepped args = .ok k) :
    cmd_si sys args c = (do silent <| sys.cpu_exec k; return 0 : Shell D R Int) c := by
  rw [cmd_si, h]

theorem cmd_si_of_error (h : stepped args = .error message) :
    cmd_si sys args c = .ok 0 (c.printed <| .message message) := by
  rw [cmd_si, h]
  exact EState.bind_of_ok printf_run

theorem cmd_x_eq : cmd_x sys args c = proceed sys (examined args) c := by
  rw [cmd_x]
  cases examined args <;> rfl

theorem cmd_x_of_error (h : examined args = .error message) :
    cmd_x sys args c = .ok 0 (c.printed <| .message message) := by
  rw [cmd_x, h]
  exact EState.bind_of_ok printf_run

end Accept

-- A number may be preceded by a plus, which needs no space before it. All other arguments are refused with a message.
theorem arguments_accepted (sys : System D R) (args : Option Text) (c : Console D R) :
    (∀ n, StepArgs args n →
      cmd_si sys args c = (do silent <| sys.cpu_exec <| BitVec.ofNat 64 n; return 0 : Shell D R Int) c) ∧
    ((∀ n, ¬StepArgs args n) → cmd_si sys args c = .ok 0 (c.printed <| .message usageSi)) ∧
    (∀ n a, ExamineArgs args n a →
      cmd_x sys args c = proceed sys (ranged (BitVec.ofNat 64 n) (BitVec.ofNat 32 a)) c) ∧
    ((∀ n a, ¬ExamineArgs args n a) →
      ∃ usage ∈ usagesX, cmd_x sys args c = .ok 0 (c.printed <| .message usage)) := by
  refine ⟨fun n h => cmd_si_of_ok (stepped_ok h), fun h => cmd_si_of_error (stepped_error h),
    fun n a h => examined_ok h ▸ cmd_x_eq, fun h => ?_⟩
  obtain h | h := examined_error h
  case inl => exact ⟨_, List.mem_cons_self, cmd_x_of_error h⟩
  case inr => exact ⟨_, List.mem_cons_of_mem _ List.mem_cons_self, cmd_x_of_error h⟩

def trapConsole : Console Unit Unit :=
  { trapMachine with out := [] }

theorem numeral_one : Numeral 10 [0x31] 1 :=
  ⟨nofun, [1], rfl, rfl⟩

-- `+1`
theorem arguments_accepted_plus : cmd_si trapSystem (some [0x2b, 0x31]) trapConsole =
    (do silent <| trapSystem.cpu_exec <| BitVec.ofNat 64 1; return 0 : Shell Unit Unit Int) trapConsole :=
  (arguments_accepted trapSystem (some [0x2b, 0x31]) trapConsole).left 1
    (StepText.mk (w := []) nofun (.inr rfl) numeral_one White.nil (by decide) (by decide))

theorem plus_not_mem (h : Numeral 10 s n) : 0x2b ∉ s := by
  intro hm
  have ⟨_, ds, hd, _⟩ := h
  have hm := List.mem_map_of_mem (f := digit? 10) hm
  rw [hd] at hm
  have ⟨d, _, he⟩ := List.mem_map.mp hm
  have hn : digit? 10 0x2b = none := by decide
  rw [hn] at he
  cases he

-- A number with a sign is accepted.
theorem arguments_signed : ¬∀ (sys : System Unit Unit) (text : Text) (c : Console Unit Unit),
    (∀ (w s w' : Text) (n : Nat), White w → Numeral 10 s n → White w' → text ≠ w ++ s ++ w') →
    cmd_si sys (some text) c = .ok 0 (c.printed <| .message usageSi) := by
  intro h
  have hc := h trapSystem [0x2b, 0x31] trapConsole fun w s w' n hw hs hw' he => ?_
  case refine_1 =>
    have hm : (0x2b : Byte) ∈ w ++ s ++ w' := he ▸ List.mem_cons_self
    simp only [List.mem_append] at hm
    obtain (hm | hm) | hm := hm
    case inl.inl => exact absurd (hw _ hm) (by decide)
    case inl.inr => exact plus_not_mem hs hm
    case inr => exact absurd (hw' _ hm) (by decide)
  have ⟨m, hx⟩ : ∃ m, trapSystem.cpu_exec 1 trapMachine = .ok () m := ⟨_, rfl⟩
  have hs : silent (trapSystem.cpu_exec 1) trapConsole = .ok () { m with out := [] } := by
    rw [silent, show trapConsole.toMachine = trapMachine by rfl, hx]
    rfl
  rw [cmd_si_of_ok (k := 1) (by decide), EState.bind_of_ok hs] at hc
  have ho := congrArg Console.out (EStateM.Result.ok.inj hc).right
  cases ho

end Shell

end Nemu
