import Ysyx.Am.Native.Audio

-- Which runs of the audio device neither lose nor reorder bytes.

namespace Am.Native.Audio

variable {cap n : Nat} {s s' : State} {e : Event} {buf stream : List Byte} {ns : List Nat} {P : State → Event → Prop}

-- No transfer resumes a loop that has already transferred bytes.
def Whole (s : State) : Event → Prop
  | .play _        => True
  | .write n       => 0 < n → s.nwrite = 0
  | .callback _ ns => ns.length ≤ 1

-- The bytes on their way: those in the pipe, and those that the loop of `audio_write` has still to write.
structure Inv (s : State) : Prop where
  flow    : s.handed ++ s.pipe ++ s.buf.drop s.nwrite = s.played
  filled  : ∀ o ∈ s.outputs, o.stream.length = o.len ∧ o.nread ≤ o.len ∧ ∀ b ∈ o.stream.drop o.nread, b = 0
  count   : s.count = s.pipe.length

theorem Inv.init : Inv {} where
  flow   := rfl
  filled := nofun
  count  := rfl

theorem Inv.correct (h : Inv s) : s.Correct where
  handed := ⟨s.pipe ++ s.buf.drop s.nwrite, by rw [← List.append_assoc, h.flow]⟩
  filled := h.filled
  count  := h.count

theorem Inv.play (h : Inv s) (hs : am_audio_play buf s = some s') : Inv s' := by
  rw [am_audio_play] at hs
  split at hs
  case isTrue => cases hs
  case isFalse hn =>
    cases hs
    have hf := h.flow
    rw [List.drop_of_length_le (Nat.not_lt.mp hn), List.append_nil] at hf
    exact {
      flow   := congrArg (· ++ buf) hf
      filled := h.filled
      count  := h.count
    }

theorem Inv.write (h : Inv s) (hw : 0 < n → s.nwrite = 0) (hs : audio_write cap n s = some s') : Inv s' := by
  rw [audio_write] at hs
  split at hs
  case isFalse => cases hs
  case isTrue =>
    rw [Audio.write] at hs
    split at hs
    case isFalse => cases hs
    case isTrue hn =>
      cases hs
      have hd : s.buf.take n ++ s.buf.drop (s.nwrite + n) = s.buf.drop s.nwrite := by
        obtain rfl | hp := Nat.eq_zero_or_pos n
        case inl => simp
        case inr => rw [hw hp, Nat.zero_add, List.take_append_drop, List.drop_zero]
      exact {
        flow   := by
          rw [← h.flow, ← hd]
          simp [State.handed]
        filled := h.filled
        count  := by simp [h.count, hn.left]
      }

-- A loop that ends after at most one transfer has read all that it asked for.
theorem readLoop_whole {nread : Nat} {pipe : List Byte} {r : Reading} (hl : ns.length ≤ 1)
    (h : readLoop nread ns ⟨pipe, stream, 0⟩ = some r) :
    r.pipe = pipe.drop nread ∧ r.stream = pipe.take nread ++ stream.drop nread ∧ nread ≤ pipe.length := by
  match ns with
  | [] =>
    rw [readLoop] at h
    split at h
    case isTrue => cases h
    case isFalse hn =>
      cases h
      obtain rfl : nread = 0 := Nat.eq_zero_of_not_pos hn
      simp
  | [n] =>
    rw [readLoop] at h
    split at h
    case isFalse => cases h
    case isTrue =>
      rw [read] at h
      split at h
      case isFalse => cases h
      case isTrue hn =>
        simp only [Option.bind_eq_bind, Option.bind_some, readLoop, Nat.zero_add] at h
        split at h
        case isTrue => cases h
        case isFalse hg =>
          cases h
          obtain rfl : n = nread := by omega
          exact ⟨rfl, rfl, hn.right.right⟩
  | _ :: _ :: _ => simp at hl

-- The padding takes the place of what was left of the old contents.
theorem padded {pipe : List Byte} {m : Nat} (hp : m ≤ pipe.length) (hs : m ≤ stream.length) :
    (if stream.length > m then (pipe.take m ++ stream.drop m).take m ++ List.replicate (stream.length - m) 0
      else pipe.take m ++ stream.drop m) = pipe.take m ++ List.replicate (stream.length - m) 0 := by
  split
  case isTrue => rw [List.take_left' (List.length_take_of_le hp)]
  case isFalse hn => simp [show stream.length - m = 0 by omega, List.drop_of_length_le (Nat.not_lt.mp hn)]

theorem Inv.callback (h : Inv s) (hl : ns.length ≤ 1) (hs : audio_play stream ns s = some s') : Inv s' := by
  simp only [audio_play, Option.bind_eq_bind, Option.bind_eq_some_iff, Option.pure_def, Option.some.injEq] at hs
  obtain ⟨r, hr, rfl⟩ := hs
  have hm : (if s.count < stream.length then s.count else stream.length) ≤ stream.length := by
    split <;> omega
  generalize (if s.count < stream.length then s.count else stream.length) = m at *
  have ⟨hp, hst, hle⟩ := readLoop_whole hl hr
  have hlen : (s.pipe.take m).length = m := List.length_take_of_le hle
  rw [hst, padded hle hm]
  exact {
    flow   := by
      rw [← h.flow, hp]
      simp [State.handed, hlen, List.take_left']
    filled := by
      intro o ho
      obtain ho | ho := List.mem_append.mp ho
      case inl => exact h.filled o ho
      case inr =>
        obtain rfl := List.mem_singleton.mp ho
        refine ⟨by simp [hlen, hm], hm, ?_⟩
        rw [List.drop_left' hlen]
        exact fun b hb => (List.mem_replicate.mp hb).right
    count  := by
      rw [hp, List.length_drop, h.count]
  }

theorem Inv.step (h : Inv s) (hw : Whole s e) (hs : step cap s e = some s') : Inv s' := by
  cases e
  case play     => exact h.play hs
  case write    => exact h.write hw hs
  case callback => exact h.callback hw hs

theorem Run.inv (h : Run cap Whole s) : Inv s := by
  induction h
  case init => exact Inv.init
  case step _ hw hs hi => exact hi.step hw hs

-- A callback returns if its reads are not short.
theorem Inv.returns (h : Inv s) (stream : List Byte) :
    ∃ ns s', Whole s (.callback stream ns) ∧ Audio.step cap s (.callback stream ns) = some s' := by
  have hm : (if s.count < stream.length then s.count else stream.length) ≤ s.pipe.length := by
    rw [← h.count]
    split <;> omega
  simp only [Audio.step, audio_play]
  generalize (if s.count < stream.length then s.count else stream.length) = m at *
  by_cases h₀ : m = 0
  case pos => exact ⟨[], _, by simp [Whole], by simp [h₀, readLoop]; rfl⟩
  case neg =>
    have hp : 0 < m := Nat.pos_of_ne_zero h₀
    exact ⟨[m], _, by simp [Whole], by simp [readLoop, hp, read, hm]; rfl⟩

-- A transfer that resumes the loop of `audio_write` starts over at the first byte of the buffer. It goes wrong
-- unless the bytes repeat.
theorem Inv.resumed (h : Inv s) (hs : audio_write cap n s = some s') :
    s'.handed ++ s'.pipe <+: s'.played ↔ s.buf.take n <+: s.buf.drop s.nwrite := by
  rw [audio_write] at hs
  split at hs
  case isFalse => cases hs
  case isTrue =>
    rw [Audio.write] at hs
    split at hs
    case isFalse => cases hs
    case isTrue =>
      cases hs
      have hf := h.flow
      simp only [State.handed] at hf ⊢
      rw [← hf, ← List.append_assoc, List.prefix_append_right_inj]

-- Runs in which every loop transfers bytes at most once are lossless.
theorem run_correct (h : Run cap Whole s) : s.Correct ∧
    ∀ stream, ∃ ns s', Whole s (.callback stream ns) ∧ step cap s (.callback stream ns) = some s' :=
  ⟨h.inv.correct, h.inv.returns⟩

theorem run_correct_padded :
    let s : State := { buf := [1, 2], nwrite := 2, played := [1, 2], outputs := [⟨3, [1, 2, 0], 2⟩] }
    s.Correct ∧ ∀ stream, ∃ ns s', Whole s (.callback stream ns) ∧ step 4 s (.callback stream ns) = some s' :=
  have h₁ : Run 4 Whole { buf := [1, 2], played := [1, 2] } := .step (e := .play [1, 2]) .init trivial rfl
  have h₂ : Run 4 Whole { pipe := [1, 2], count := 2, buf := [1, 2], nwrite := 2, played := [1, 2] } :=
    .step (e := .write 2) h₁ (fun _ => rfl) rfl
  run_correct (.step (e := .callback [7, 7, 7] [2]) h₂ (by simp [Whole]) rfl)

-- Four bytes are written in two halves, and the callback gets the first half twice.
theorem not_run_correct : ¬∀ (cap : Nat) (s : State), Run cap (fun _ _ => True) s → s.Correct := by
  intro h
  have h₁ : Run 4 (fun _ _ => True) { buf := [1, 2, 3, 4], played := [1, 2, 3, 4] } :=
    .step (e := .play [1, 2, 3, 4]) .init trivial rfl
  have h₂ : Run 4 (fun _ _ => True)
      { pipe := [1, 2], count := 2, buf := [1, 2, 3, 4], nwrite := 2, played := [1, 2, 3, 4] } :=
    .step (e := .write 2) h₁ trivial rfl
  have h₃ : Run 4 (fun _ _ => True)
      { pipe := [1, 2, 1, 2], count := 4, buf := [1, 2, 3, 4], nwrite := 4, played := [1, 2, 3, 4] } :=
    .step (e := .write 2) h₂ trivial rfl
  have h₄ : Run 4 (fun _ _ => True)
      { buf := [1, 2, 3, 4], nwrite := 4, played := [1, 2, 3, 4], outputs := [⟨4, [1, 2, 1, 2], 4⟩] } :=
    .step (e := .callback [0, 0, 0, 0] [4]) h₃ trivial rfl
  have hp : [1, 2, 1, 2] <+: ([1, 2, 3, 4] : List Byte) := (h 4 _ h₄).handed
  revert hp
  decide

end Am.Native.Audio
