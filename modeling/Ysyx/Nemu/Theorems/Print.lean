import Ysyx.Nemu.Theorems.Examine
import Ysyx.Nemu.Theorems.Grammar

-- The memory that the command `x` reads and prints.

namespace Nemu.Shell

variable {D R α : Type} {sys : System D R} {c : Console D R} {m : Machine D R} {args : Option Text} {start : Word}
variable {a i n : Nat} {k : BitVec 64}

open EState (bind_of_ok bind_of_error)

-- The words at the given addresses have been read one after the other.
inductive Reads (sys : System D R) : Machine D R → List (Word × Word) → Machine D R → Prop
  | nil {m : Machine D R} : Reads sys m [] m
  | cons {m m' m'' : Machine D R} {addr v : Word} {rs : List (Word × Word)} :
    access (sys.vaddr_read addr 4) m = .ok v m' → Reads sys m' rs m'' → Reads sys m ((addr, v) :: rs) m''

def lines (rs : List (Word × Word)) : List Line :=
  rs.map fun r => .word r.fst r.snd

-- The words at `addrs` are read and printed one after the other, up to a read that ends the program.
inductive Examines (sys : System D R) (c : Console D R) (addrs : List Word) :
    EStateM.Result Fault (Console D R) Int → Prop
  | all {m' : Machine D R} {rs : List (Word × Word)} : Reads sys c.toMachine rs m' → rs.map Prod.fst = addrs →
    Examines sys c addrs (.ok 0 { toMachine := m', out := c.out ++ lines rs })
  | part {m' m'' : Machine D R} {rs : List (Word × Word)} {addr : Word} {e : Fault} : Reads sys c.toMachine rs m' →
    rs.map Prod.fst ++ [addr] <+: addrs → access (sys.vaddr_read addr 4) m' = .error e m'' →
    Examines sys c addrs (.error e { toMachine := m'', out := c.out ++ lines rs })

-- The addresses of `n` words, the first of which is at `a`.
def words (a n : Nat) : List Word :=
  (List.range n).map fun i => BitVec.ofNat 32 (a + 4 * i)

def wraps : String := "Memory range wraps around the virtual address space"

-- The words of a range that does not wrap are examined in order. Any other range is only reported.
def Observed (sys : System D R) (args : Option Text) (n a : Nat) (c : Console D R) : Prop :=
  if a + 4 * n ≤ 2 ^ 32 then
    (words a n).Pairwise (fun x y => x.toNat < y.toNat) ∧ Examines sys c (words a n) (cmd_x sys args c)
  else
    cmd_x sys args c = .ok 0 (c.printed <| .message wraps)

section Erase

variable {β : Type} {x : Shell D R α} {y : Exec D R α}

def forget : EStateM.Result Fault (Console D R) α → EStateM.Result Fault (Machine D R) α
  | .ok v c    => .ok v c.toMachine
  | .error e c => .error e c.toMachine

-- Without its output `x` is `y`.
def Erases (x : Shell D R α) (y : Exec D R α) : Prop :=
  ∀ c, forget (x c) = y c.toMachine

theorem Erases.pure {v : α} : Erases (pure v : Shell D R α) (pure v) :=
  fun _ => rfl

theorem Erases.silent : Erases (silent y) y := by
  intro c
  rw [Shell.silent]
  cases y c.toMachine <;> rfl

theorem Erases.printf {line : Line} : Erases (printf line : Shell D R Unit) (Pure.pure ()) :=
  fun _ => rfl

theorem Erases.bind {f : α → Shell D R β} {g : α → Exec D R β} (h : Erases x y) (hf : ∀ v, Erases (f v) (g v)) :
    Erases (x >>= f) (y >>= g) := by
  intro c
  have hx := h c
  cases hr : x c
  case ok v c' =>
    rw [hr] at hx
    rw [bind_of_ok hr, bind_of_ok hx.symm]
    exact hf v c'
  case error e c' =>
    rw [hr] at hx
    rw [bind_of_error hr, bind_of_error hx.symm]
    rfl

theorem examine_erases : Erases (examine sys start i n) (sys.examine start i n) := by
  induction n generalizing i
  case zero => exact .pure
  case succ n hi =>
    intro c
    rw [Nemu.examine_succ]
    exact Erases.bind .silent (fun v => .bind .printf fun _ => hi) c

-- The commands without what they print are those of the debugger.

theorem cmd_x_erases : Erases (cmd_x sys args) (sys.cmd_x args) := by
  unfold cmd_x System.cmd_x
  cases examined args
  case ok => exact Erases.bind examine_erases fun _ => .pure
  case error => exact Erases.bind .printf fun _ => .pure

theorem cmd_si_erases : Erases (cmd_si sys args) (sys.cmd_si args) := by
  unfold cmd_si System.cmd_si
  cases stepped args
  case ok => exact Erases.bind .silent fun _ => .pure
  case error => exact Erases.bind .printf fun _ => .pure

end Erase

section Examine

theorem silent_ok {x : Exec D R α} {v : α} (h : x c.toMachine = .ok v m) :
    silent x c = .ok v { c with toMachine := m } := by
  rw [silent, h]

theorem silent_error {x : Exec D R α} {e : Fault} (h : x c.toMachine = .error e m) :
    silent x c = .error e { c with toMachine := m } := by
  rw [silent, h]

-- One word has been read and printed.
theorem Examines.cons {addr v : Word} {m' : Machine D R} {addrs : List Word}
    {r : EStateM.Result Fault (Console D R) Int} (h : access (sys.vaddr_read addr 4) c.toMachine = .ok v m')
    (hr : Examines sys { toMachine := m', out := c.out ++ [.word addr v] } addrs r) :
    Examines sys c (addr :: addrs) r := by
  cases hr
  case all m'' rs hr ha =>
    simp only [List.append_assoc]
    exact .all (.cons h hr) (by simp [ha])
  case part rs addr' e hr ha he =>
    simp only [List.append_assoc]
    exact .part (.cons h hr) (by simpa using ha) he

theorem examine_succ : examine sys start i (n + 1) = (do
    let value ← silent <| access <| sys.vaddr_read (start + BitVec.ofNat 32 (i * 4)) 4
    printf <| .word (start + BitVec.ofNat 32 (i * 4)) value
    examine sys start (i + 1) n) := rfl

theorem examine_examines : Examines sys c ((List.range' i n).map fun j => start + BitVec.ofNat 32 (j * 4))
    ((do examine sys start i n; return 0 : Shell D R Int) c) := by
  induction n generalizing i c
  case zero =>
    have h : Examines sys c [] (.ok 0 { toMachine := c.toMachine, out := c.out ++ lines [] }) := .all .nil rfl
    rwa [lines, List.map_nil, List.append_nil] at h
  case succ n hi =>
    rw [List.range'_succ, List.map_cons, examine_succ, bind_assoc]
    cases ha : access (sys.vaddr_read (start + BitVec.ofNat 32 (i * 4)) 4) c.toMachine
    case error e m =>
      rw [bind_of_error (silent_error ha)]
      have h : Examines sys c ((start + BitVec.ofNat 32 (i * 4)) ::
        (List.range' (i + 1) n).map fun j => start + BitVec.ofNat 32 (j * 4)) _ := .part .nil ⟨_, rfl⟩ ha
      simpa [lines] using h
    case ok v m =>
      rw [bind_of_ok (silent_ok ha), bind_assoc, bind_of_ok printf_run]
      exact .cons ha hi

-- A message is not a word.
theorem Examines.ne_message {addrs : List Word} {r : EStateM.Result Fault (Console D R) Int} {text : String}
    (h : Examines sys c addrs r) (hn : addrs ≠ []) : r ≠ .ok 0 (c.printed <| .message text) := by
  cases h
  case part => nofun
  case all rs hr ha =>
    intro he
    have ho := congrArg Console.out (EStateM.Result.ok.inj he).right
    have ho : lines rs = [.message text] := List.append_cancel_left ho
    cases rs
    case nil => exact hn ha.symm
    case cons r rs => cases ho

end Examine

section Range

theorem words_eq : words a n = (List.range' 0 n).map fun i => BitVec.ofNat 32 a + BitVec.ofNat 32 (i * 4) := by
  rw [words, List.range_eq_range']
  refine List.map_congr_left fun i _ => ?_
  rw [Nat.mul_comm, BitVec.ofNat_add]

theorem words_ne_nil (h : 0 < n) : words a n ≠ [] := by
  simpa [words] using h.ne'

theorem words_pairwise (h : a + 4 * n ≤ 2 ^ 32) : (words a n).Pairwise fun x y => x.toNat < y.toNat := by
  rw [words, List.pairwise_map]
  refine List.pairwise_lt_range.imp_of_mem fun hi hj hij => ?_
  have hi := List.mem_range.mp hi
  have hj := List.mem_range.mp hj
  simp only [BitVec.toNat_ofNat]
  omega

-- The test lets ranges pass the end of which is not more than three bytes behind the last address.
theorem range_iff (ha : a < 2 ^ 32) (hn : n < 2 ^ 64) :
    BitVec.ofNat 64 n > (0xffffffff - (BitVec.ofNat 32 a).setWidth 64) / 4 + 1 ↔ 2 ^ 32 + 4 ≤ a + 4 * n := by
  have hs : ((BitVec.ofNat 32 a).setWidth 64).toNat = a := by
    simp only [BitVec.toNat_setWidth, BitVec.toNat_ofNat]
    omega
  have hd : (0xffffffff - (BitVec.ofNat 32 a).setWidth 64 : BitVec 64).toNat = 0xffffffff - a := by
    have hle : (BitVec.ofNat 32 a).setWidth 64 ≤ (0xffffffff : BitVec 64) := by
      rw [BitVec.le_def, hs]
      exact Nat.le_of_lt_succ ha
    rw [BitVec.toNat_sub_of_le hle, hs]
    rfl
  have hm : ((0xffffffff - (BitVec.ofNat 32 a).setWidth 64) / 4 + 1 : BitVec 64).toNat = (0xffffffff - a) / 4 + 1 := by
    rw [BitVec.toNat_add, BitVec.toNat_udiv, hd]
    refine Nat.mod_eq_of_lt ?_
    have hq : (0xffffffff - a) / 4 ≤ 0xffffffff := by omega
    exact Nat.lt_of_le_of_lt (Nat.succ_le_succ hq) (by decide)
  rw [gt_iff_lt, BitVec.lt_def, hm, BitVec.toNat_ofNat]
  omega

end Range

section Observe

theorem cmd_x_examines (h : examined args = .ok (BitVec.ofNat 64 n, BitVec.ofNat 32 a)) (hn : n < 2 ^ 64) :
    Examines sys c (words a n) (cmd_x sys args c) := by
  have hk : (BitVec.ofNat 64 n).toNat = n := Nat.mod_eq_of_lt hn
  rw [cmd_x_eq, h, words_eq, proceed, hk]
  exact examine_examines

theorem ExamineText.bounds {text : Text} (h : ExamineText text n a) : 0 < n ∧ n < 2 ^ 64 ∧ a < 2 ^ 32 := by
  obtain ⟨_, _, _, _, _, _, _, _, h₀, hn, ha⟩ := h
  exact ⟨h₀, hn, ha⟩

end Observe

-- Ranges are examined that reach up to three bytes behind the last address, and these only.
theorem examination_iff (sys : System D R) (text : Text) (n a : Nat) (c : Console D R) (h : ExamineText text n a) :
    Observed sys (some text) n a c ↔ ¬(2 ^ 32 < a + 4 * n ∧ a + 4 * n < 2 ^ 32 + 4) := by
  have ⟨h₀, hn, ha⟩ := ExamineText.bounds h
  have hx : examined (some text) = _ := examined_ok h
  rw [ranged] at hx
  have hr := range_iff ha hn
  rw [Observed]
  split
  case isTrue hw =>
    rw [if_neg (hr.not.mpr (by omega))] at hx
    exact ⟨fun _ => by omega, fun _ => ⟨words_pairwise hw, cmd_x_examines hx hn⟩⟩
  case isFalse hw =>
    by_cases hb : 2 ^ 32 + 4 ≤ a + 4 * n
    case pos =>
      rw [if_pos (hr.mpr hb)] at hx
      exact ⟨fun _ => by omega, fun _ => cmd_x_of_error hx⟩
    case neg =>
      rw [if_neg (hr.not.mpr hb)] at hx
      refine ⟨fun he => absurd he ?_, fun hl => by omega⟩
      exact (cmd_x_examines hx hn).ne_message (words_ne_nil h₀)

-- `1 0xfffffffc`
def lastWord : Text :=
  [0x31, 0x20, 0x30, 0x78, 0x66, 0x66, 0x66, 0x66, 0x66, 0x66, 0x66, 0x63]

-- `1 0xffffffff`
def lastByte : Text :=
  [0x31, 0x20, 0x30, 0x78, 0x66, 0x66, 0x66, 0x66, 0x66, 0x66, 0x66, 0x66]

theorem white_space : White [0x20] := by
  simp [White, isspace]

theorem examineText_last (c : Byte) (d : Nat) (hd : digit? 16 c = some d) (ha : 0xfffffff0 + d < 2 ^ 32) :
    ExamineText [0x31, 0x20, 0x30, 0x78, 0x66, 0x66, 0x66, 0x66, 0x66, 0x66, 0x66, c] 1 (0xfffffff0 + d) := by
  have hn : Numeral 16 [0x66, 0x66, 0x66, 0x66, 0x66, 0x66, 0x66, c] (0xfffffff0 + d) := by
    refine ⟨nofun, [15, 15, 15, 15, 15, 15, 15, d], ?_, ?_⟩
    case refine_1 =>
      simp only [List.map_cons, List.map_nil, hd]
      rfl
    case refine_2 =>
      simp [Nat.ofDigits]
      omega
  have h : ExamineText ([] ++ [] ++ [0x31] ++ [0x20] ++ [] ++
      (0x30 :: 0x78 :: [0x66, 0x66, 0x66, 0x66, 0x66, 0x66, 0x66, c]) ++ []) 1 (0xfffffff0 + d) :=
    .mk .nil (.inl rfl) numeral_one white_space (.inl rfl) (.hexadecimal (.inl rfl) hn) .nil (.inl nofun) (by decide)
      (by decide) ha
  exact h

theorem examination_iff_last : Observed trapSystem (some lastWord) 1 0xfffffffc trapConsole ↔
    ¬(2 ^ 32 < 0xfffffffc + 4 * 1 ∧ 0xfffffffc + 4 * 1 < 2 ^ 32 + 4) :=
  examination_iff trapSystem lastWord 1 0xfffffffc trapConsole (examineText_last 0x63 12 rfl (by decide))

-- The last byte of the address space is not the beginning of a word.
theorem examination_wraps : ¬∀ (sys : System Unit Unit) (text : Text) (n a : Nat) (c : Console Unit Unit),
    ExamineText text n a → Observed sys (some text) n a c := by
  intro h
  have ho := h trapSystem lastByte 1 0xffffffff trapConsole (examineText_last 0x66 15 rfl (by decide))
  rw [Observed, if_neg (by decide)] at ho
  have hx : examined (some lastByte) = .ok (BitVec.ofNat 64 1, BitVec.ofNat 32 0xffffffff) := by decide
  exact (cmd_x_examines hx (by decide)).ne_message (words_ne_nil (by decide)) ho

end Nemu.Shell
