import Ysyx.ExamModule.FsmBin
import Ysyx.ExamModule.Theorems.MuxKeyInternal
import Ysyx.Lists.Runs
import Mathlib.Data.Fin.VecNotation
import Mathlib.Data.Fintype.Basic

namespace ExamModule.FsmBin

open Clocked (feed)

variable {b : Bool} {s s' : BitVec 4} {run : Option (Bool × Nat)}

section Tables

-- `pair_list` of the multiplexers. The pair that is written last has index 0.
def outPairs : Fin 9 → BitVec 4 × BitVec 1 :=
  ![(S8, 1), (S7, 0), (S6, 0), (S5, 0), (S4, 1), (S3, 0), (S2, 0), (S1, 0), (S0, 0)]

def statePairs (b : Bool) : Fin 9 → BitVec 4 × BitVec 4 :=
  ![(S8, if b then S8 else S1), (S7, if b then S8 else S1), (S6, if b then S7 else S1),
    (S5, if b then S6 else S1), (S4, if b then S5 else S4), (S3, if b then S5 else S4),
    (S2, if b then S5 else S3), (S1, if b then S5 else S2), (S0, if b then S5 else S1)]

theorem outLut_eq : outLut = lutOf outPairs := by
  decide

theorem stateLut_eq : stateLut b = lutOf (statePairs b) := by
  cases b <;> decide

theorem outPairs_injective : Function.Injective fun i => (outPairs i).fst := by
  decide

theorem statePairs_injective : Function.Injective fun i => (statePairs b i).fst := by
  cases b <;> decide

theorem outMux_of_exists {o : BitVec 1} (h : ∃ i, outPairs i = (s, o)) : outMux s = o := by
  rw [outMux, outLut_eq]
  exact muxKeyInternal_of_exists outPairs_injective h

theorem stateMux_of_exists (h : ∃ i, statePairs b i = (s, s')) : stateMux b s = s' := by
  rw [stateMux, stateLut_eq]
  exact muxKeyInternal_of_exists statePairs_injective h

end Tables

section Runs

open Runs (extend)

-- The state for each last run of the bits since the reset: S1 to S4 count zeros, S5 to S8 count ones.
def encode : Option (Bool × Nat) → BitVec 4
  | none                => S0
  | some (false, 0)     => S1
  | some (false, 1)     => S2
  | some (false, 2)     => S3
  | some (false, _ + 3) => S4
  | some (true, 0)      => S5
  | some (true, 1)      => S6
  | some (true, 2)      => S7
  | some (true, _ + 3)  => S8

-- One step of the machine extends the run.
theorem stateMux_encode : stateMux b (encode run) = encode (extend run b) := by
  refine stateMux_of_exists ?_
  match run with
  | none                => cases b <;> decide
  | some (false, 0)     => cases b <;> decide
  | some (false, 1)     => cases b <;> decide
  | some (false, 2)     => cases b <;> decide
  | some (false, _ + 3) => cases b <;> exact ⟨4, rfl⟩
  | some (true, 0)      => cases b <;> decide
  | some (true, 1)      => cases b <;> decide
  | some (true, 2)      => cases b <;> decide
  | some (true, _ + 3)  => cases b <;> exact ⟨0, rfl⟩

-- The output is high from the fourth equal bit on.
theorem outMux_encode : outMux (encode run) = if run.any (3 ≤ ·.snd) then 1 else 0 := by
  refine outMux_of_exists ?_
  match run with
  | none                => decide
  | some (false, 0)     => decide
  | some (false, 1)     => decide
  | some (false, 2)     => decide
  | some (false, k + 3) => exact ⟨4, by simp [encode, outPairs]⟩
  | some (true, 0)      => decide
  | some (true, 1)      => decide
  | some (true, 2)      => decide
  | some (true, k + 3)  => exact ⟨0, by simp [encode, outPairs]⟩

theorem outMux_encode_iff : outMux (encode run) = 1 ↔ ∃ b k, 3 ≤ k ∧ run = some (b, k) := by
  rw [outMux_encode]
  cases run
  case none => simp
  case some r => simp [Prod.ext_iff]

end Runs

-- The bits are clocked in while `reset` is low.
def clockedIn (bits : List Bool) : List Pins :=
  bits.map fun b => { input := b, reset := false }

variable {bits : List Bool} {before : List Pins}

theorem feed_clockedIn : feed next (encode run) (clockedIn bits) = encode (bits.foldl Runs.extend run) := by
  induction bits generalizing run
  case nil => rfl
  case cons b bits hi =>
    rw [clockedIn, List.map_cons, Clocked.feed_cons, List.foldl_cons, ← hi]
    congr 1
    exact stateMux_encode

theorem next_reset : next { input := b, reset := true } s = encode none :=
  rfl

theorem feed_reset : feed next s (before ++ { input := b, reset := true } :: clockedIn bits) =
    encode (Runs.last bits) := by
  rw [Clocked.feed_append, Clocked.feed_cons, next_reset, feed_clockedIn]
  rfl

theorem last_four : (∃ b k, 3 ≤ k ∧ Runs.last bits = some (b, k)) ↔
    4 ≤ bits.length ∧ ∃ b, bits.drop (bits.length - 4) = List.replicate 4 b := by
  simp only [← Runs.replicate_suffix, List.suffix_iff_eq_drop, List.length_replicate]
  constructor
  case mp =>
    intro ⟨b, hb⟩
    have := congrArg List.length hb
    exact ⟨by simp at this; omega, b, hb.symm⟩
  case mpr => exact fun ⟨_, b, hb⟩ => ⟨b, hb.symm⟩

-- Whatever the machine went through `before` an edge with `reset` high and whatever is clocked in since.
theorem out_iff_run_of_four (s : BitVec 4) (before : List Pins) (b : Bool) (bits : List Bool) :
    outMux (feed next s (before ++ { input := b, reset := true } :: clockedIn bits)) = 1 ↔
    4 ≤ bits.length ∧ ∃ b, bits.drop (bits.length - 4) = List.replicate 4 b := by
  rw [feed_reset, outMux_encode_iff, last_four]

end ExamModule.FsmBin
