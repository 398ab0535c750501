import Mathlib.Data.List.Induction

-- Synchronous designs: a state that changes at the edges of one clock.

namespace Clocked

variable {S I : Type} {next : I → S → S} {w : Nat → I} {s : S} {m n : Nat}

-- The state after `n` edges, where `w i` are the inputs at edge `i`.
def run (next : I → S → S) (w : Nat → I) (s : S) : Nat → S
  | 0     => s
  | n + 1 => next (w n) (run next w s n)

@[simp] theorem run_zero : run next w s 0 = s := (rfl)

theorem run_succ : run next w s (n + 1) = next (w n) (run next w s n) := rfl

theorem run_add : run next w s (m + n) = run next (fun i => w (m + i)) (run next w s m) n := by
  induction n
  case zero => rfl
  case succ n ih => rw [← Nat.add_assoc, run_succ, ih, run_succ]

theorem run_invariant {P : Nat → S → Prop} (zero : P 0 s) (succ : ∀ n s, P n s → P (n + 1) (next (w n) s)) :
    P n (run next w s n) := by
  induction n
  case zero => exact zero
  case succ ih => exact succ _ _ ih

-- The state after a finite sequence of edges, given by their inputs.
def feed (next : I → S → S) (s : S) (is : List I) : S :=
  is.foldl (fun s i => next i s) s

-- What a finite sequence of edges emits, where `out i s` is emitted at an edge with input `i` in state `s`.
def emitted {O : Type} (next : I → S → S) (out : I → S → Option O) (s : S) : List I → List O
  | []      => []
  | i :: is => (out i s).toList ++ emitted next out (next i s) is

variable {O : Type} {out : I → S → Option O} {is is' : List I} {i : I}

@[simp] theorem feed_nil : feed next s [] = s := (rfl)
@[simp] theorem feed_cons : feed next s (i :: is) = feed next (next i s) is := (rfl)

@[simp] theorem feed_append : feed next s (is ++ is') = feed next (feed next s is) is' :=
  List.foldl_append

@[simp] theorem emitted_nil : emitted next out s [] = [] := (rfl)

@[simp] theorem emitted_cons :
    emitted next out s (i :: is) = (out i s).toList ++ emitted next out (next i s) is := (rfl)

@[simp] theorem emitted_append : emitted next out s (is ++ is') =
    emitted next out s is ++ emitted next out (feed next s is) is' := by
  induction is generalizing s
  case nil => rfl
  case cons hi => simp [hi]

-- An invariant that may speak about the inputs so far.
theorem feed_invariant {P : List I → S → Prop} (nil : P [] s)
    (snoc : ∀ is i s, P is s → P (is ++ [i]) (next i s)) : P is (feed next s is) := by
  induction is using List.reverseRecOn
  case nil => exact nil
  case append_singleton is i hi => simpa using snoc is i _ hi

end Clocked
