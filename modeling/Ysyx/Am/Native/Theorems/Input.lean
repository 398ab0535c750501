import Ysyx.Am.Native.Input

-- No event is lost while the queue is not full.

namespace Am.Native.Input

open Keys (Queue KEYDOWN_MASK)

variable {p : Platform} {q : Queue} {ops : List Op} {op : Op} {results : List AM_INPUT_KEYBRD_T} {key : Word}
variable {scancode n : Nat} {keydown : Bool}

-- What a call reports for a code.
def decoded (k : Word) : AM_INPUT_KEYBRD_T where
  keydown := k &&& KEYDOWN_MASK ≠ 0
  keycode := k &&& ~~~KEYDOWN_MASK

section Codes

theorem keymap_lt (h : scancode < 256) : (p.keymap scancode).toNat < 0x8000 := by
  rw [Platform.keymap, if_pos h]
  exact Keys.keymap_lt (by decide) _

theorem decoded_code (h : key.toNat < 0x8000) : decoded (Keys.code key keydown) = ⟨keydown, key⟩ := by
  have hd : decide (Keys.code key keydown &&& KEYDOWN_MASK ≠ 0) = keydown := by
    rw [Bool.eq_iff_iff, decide_eq_true_iff]
    exact Keys.code_and_mask h
  rw [decoded, Keys.code_and_not_mask h, hd]

theorem decoded_none : (decoded AM_KEY_NONE).keycode = AM_KEY_NONE := by
  decide

theorem keybrd_eq (q : Queue) : ∃ q', am_input_keybrd q = (decoded (q.pending.headD AM_KEY_NONE), q') ∧
    q'.pending = q.pending.tail := by
  have ⟨q', hq, hp⟩ := Queue.take_eq q AM_KEY_NONE
  exact ⟨q', by rw [am_input_keybrd, hq]; rfl, hp⟩

end Codes

section Run

-- The events are those that have been received and those that are pending, and a pending code is that of an event.
structure Inv (p : Platform) (ops : List Op) : Prop where
  events : p.events ops = received (p.run ops).snd ++ (p.run ops).fst.pending.map decoded
  keys   : ∀ key ∈ (p.run ops).fst.pending, (decoded key).keycode ≠ AM_KEY_NONE

theorem run_append : p.run (ops ++ [op]) = p.step (p.run ops) op := by
  rw [Platform.run, List.foldl_append]
  rfl

theorem Inv.nil : Inv p [] := by
  have hp : (p.run []).fst.pending = [] := Queue.pending_init
  exact ⟨by rw [hp]; rfl, by simp [hp]⟩

theorem received_append {r : AM_INPUT_KEYBRD_T} :
    received (results ++ [r]) = received results ++ if r.keycode = AM_KEY_NONE then [] else [r] := by
  rw [received, received, List.filter_append]
  congr 1
  by_cases h : r.keycode = AM_KEY_NONE <;> simp [h]

theorem events_append : p.events (ops ++ [op]) = p.events ops ++ (p.event op).toList := by
  rw [Platform.events, List.filterMap_append]
  congr 1

-- An event finds a free slot.
theorem pending_event_thread (h : p.Room q (.key scancode keydown)) :
    (p.event_thread scancode keydown q).pending.map decoded =
      q.pending.map decoded ++ (p.event (.key scancode keydown)).toList ∧
    ∀ key ∈ (p.event_thread scancode keydown q).pending, key ∈ q.pending ∨ (decoded key).keycode ≠ AM_KEY_NONE := by
  by_cases hk : p.keymap scancode ≠ 0
  case pos =>
    have ⟨hs, hr⟩ := h hk
    have hd : decoded (Keys.code (p.keymap scancode) keydown) = _ := decoded_code (keymap_lt hs)
    have hq : (p.event_thread scancode keydown q).pending =
        q.pending ++ [Keys.code (p.keymap scancode) keydown] := by
      rw [Platform.event_thread, if_pos hk]
      exact Queue.pending_put hr
    have he : p.event (.key scancode keydown) = some ⟨keydown, p.keymap scancode⟩ := if_pos ⟨hs, hk⟩
    refine ⟨by rw [hq, he, List.map_append, List.map_singleton, hd, Option.toList_some], fun key hm => ?_⟩
    rw [hq, List.mem_append, List.mem_singleton] at hm
    refine hm.imp_right fun hm => ?_
    rw [hm, hd]
    exact hk
  case neg =>
    have he : p.event (.key scancode keydown) = none := if_neg fun hc => hk hc.right
    rw [Platform.event_thread, if_neg hk, he, Option.toList_none, List.append_nil]
    exact ⟨rfl, fun _ => .inl⟩

-- A call reports the first pending code.
theorem received_keybrd (hk : ∀ key ∈ q.pending, (decoded key).keycode ≠ AM_KEY_NONE) :
    received (results ++ [(am_input_keybrd q).fst]) ++ (am_input_keybrd q).snd.pending.map decoded =
      received results ++ q.pending.map decoded := by
  have ⟨q', he, hq⟩ := keybrd_eq q
  rw [he, hq, received_append]
  cases hp : q.pending
  case nil => simp [decoded_none]
  case cons key keys => simp [hk key (hp ▸ List.mem_cons_self)]

theorem Inv.step (h : Inv p ops) (hr : p.Room (p.run ops).fst op) : Inv p (ops ++ [op]) := by
  cases op
  case key scancode keydown =>
    have ⟨hm, hn⟩ := pending_event_thread hr
    refine ⟨?_, fun key hk => ?_⟩
    case refine_1 =>
      rw [events_append, run_append, Platform.step, hm, ← List.append_assoc, ← h.events]
    case refine_2 =>
      rw [run_append] at hk
      exact (hn key hk).elim (h.keys key) id
  case keybrd =>
    have ⟨q', he, hq⟩ := keybrd_eq (p.run ops).fst
    refine ⟨?_, fun key hk => ?_⟩
    case refine_1 =>
      rw [events_append, run_append, Platform.step, received_keybrd h.keys, ← h.events]
      exact List.append_nil _
    case refine_2 =>
      rw [run_append, Platform.step, he, hq] at hk
      exact h.keys key (List.mem_of_mem_tail hk)

theorem Inv.delivered (h : Inv p ops) : p.Delivered ops where
  order := ⟨_, h.events.symm⟩
  all hn := by
    have ⟨q', he, _⟩ := keybrd_eq (p.run ops).fst
    rw [he] at hn
    rw [h.events]
    cases hp : (p.run ops).fst.pending
    case nil => simp
    case cons key keys =>
      rw [hp] at hn
      exact absurd hn (h.keys key (hp ▸ List.mem_cons_self))

theorem Inv.run (h : ∀ pre op, pre ++ [op] <+: ops → p.Room (p.run pre).fst op) {pre : List Op} (hp : pre <+: ops) :
    Inv p pre := by
  induction pre using List.reverseRecOn
  case nil => exact .nil
  case append_singleton pre op hi => exact (hi ((List.prefix_append pre [op]).trans hp)).step (h pre op hp)

-- Without a free slot the pending events are lost, and no key is reported.
theorem Inv.room (h : Inv p ops) (hs : op.InArray) (hd : p.Delivered (ops ++ [op])) :
    p.Room (p.run ops).fst op := by
  cases op
  case keybrd => trivial
  case key scancode keydown =>
    intro hk
    refine ⟨hs, fun hf => ?_⟩
    have hq : (p.run (ops ++ [.key scancode keydown])).fst.pending = [] := by
      rw [run_append, Platform.step, Platform.event_thread, if_pos hk]
      exact Queue.pending_put_full hf
    have ⟨q', he, _⟩ := keybrd_eq (p.run (ops ++ [.key scancode keydown])).fst
    have ha := hd.all (by rw [he, hq]; exact decoded_none)
    have hv : p.event (.key scancode keydown) = some ⟨keydown, p.keymap scancode⟩ := if_pos ⟨hs, hk⟩
    rw [run_append, Platform.step, events_append, h.events, hv] at ha
    have hl := congrArg List.length ha
    simp at hl

theorem Inv.of_delivered (hs : ∀ op ∈ ops, op.InArray) (hd : ∀ pre, pre <+: ops → p.Delivered pre) {pre : List Op}
    (hp : pre <+: ops) : Inv p pre := by
  induction pre using List.reverseRecOn
  case nil => exact .nil
  case append_singleton pre op hi =>
    have h := hi ((List.prefix_append pre [op]).trans hp)
    exact h.step <| h.room (hs op <| hp.subset <| by simp) (hd _ hp)

end Run

-- In a run all of whose events find room every event is delivered, in every state reached.
theorem events_delivered (p : Platform) (ops : List Op)
    (h : ∀ pre op, pre ++ [op] <+: ops → p.Room (p.run pre).fst op) (pre : List Op) (hp : pre <+: ops) :
    p.Delivered pre :=
  (Inv.run h hp).delivered

-- As long as the scancodes are in the array, these are the only runs.
theorem delivered_iff_room (p : Platform) (ops : List Op) (hs : ∀ op ∈ ops, op.InArray) :
    (∀ pre, pre <+: ops → p.Delivered pre) ↔ ∀ pre op, pre ++ [op] <+: ops → p.Room (p.run pre).fst op := by
  constructor
  case mp =>
    intro hd pre op hp
    have h := Inv.of_delivered hs hd <| (List.prefix_append pre [op]).trans hp
    exact h.room (hs op <| hp.subset <| by simp) (hd _ hp)
  case mpr => exact fun h _ hp => (Inv.run h hp).delivered

section Overflow

theorem pending_of_keys (hk : p.keymap scancode ≠ 0) (hn : n < Keys.KEY_QUEUE_LEN) :
    (p.run (List.replicate n (.key scancode keydown))).fst.pending =
      List.replicate n (Keys.code (p.keymap scancode) keydown) := by
  induction n
  case zero => exact Queue.pending_init
  case succ n hi =>
    have hi := hi (Nat.lt_of_succ_lt hn)
    rw [List.replicate_succ', run_append, Platform.step, Platform.event_thread, if_pos hk, List.replicate_succ', ← hi]
    refine Queue.pending_put fun hf => ?_
    have hl := Queue.full_iff.mp hf
    rw [hi, List.length_replicate, Keys.KEY_QUEUE_LEN] at hl
    rw [hl] at hn
    exact absurd hn (by decide)

-- A burst of as many events as the array has slots leaves an empty queue.
theorem pending_of_burst (hk : p.keymap scancode ≠ 0) :
    (p.run (List.replicate Keys.KEY_QUEUE_LEN (.key scancode keydown))).fst.pending = [] := by
  have hp : (p.run (List.replicate 1023 (.key scancode keydown))).fst.pending = _ := pending_of_keys hk (by decide)
  have hr : List.replicate Keys.KEY_QUEUE_LEN (Op.key scancode keydown) =
    List.replicate 1023 (.key scancode keydown) ++ [.key scancode keydown] := List.replicate_succ'
  rw [hr, run_append, Platform.step, Platform.event_thread, if_pos hk]
  refine Queue.pending_put_full (Queue.full_iff.mpr ?_)
  rw [hp, List.length_replicate]
  rfl

theorem results_of_keys : (p.run (List.replicate n (.key scancode keydown))).snd = [] := by
  induction n
  case zero => rfl
  case succ n hi => rw [List.replicate_succ', run_append, Platform.step, hi]

theorem events_of_keys (hs : scancode < 256) (hk : p.keymap scancode ≠ 0) :
    p.events (List.replicate n (.key scancode keydown)) = List.replicate n ⟨keydown, p.keymap scancode⟩ := by
  induction n
  case zero => rfl
  case succ n hi =>
    have he : p.event (.key scancode keydown) = some ⟨keydown, p.keymap scancode⟩ := if_pos ⟨hs, hk⟩
    rw [List.replicate_succ', events_append, hi, he, Option.toList_some, List.replicate_succ']

end Overflow

-- The scancode 4 of the key A, and 0 for the others.
def keyA : Platform where
  SDL_SCANCODE key := if key = "A" then 4 else 0
  behind _         := 0

theorem keymap_A : keyA.keymap 4 = 0x2b := (rfl)

-- The key A is pressed, and its event comes out.
theorem events_delivered_A : keyA.Delivered [.key 4 true, .keybrd] := by
  refine events_delivered keyA [.key 4 true, .keybrd] (fun pre op ⟨ops, hp⟩ => ?_) _ (List.prefix_refl _)
  obtain _ | ⟨_, _ | ⟨_, pre⟩⟩ := pre
  case nil => cases hp; exact fun _ => by decide
  case cons.nil => cases hp; trivial
  case cons.cons =>
    have hl := congrArg List.length hp
    simp at hl

-- After 1024 events no key is reported.
theorem events_lost : ¬∀ (p : Platform) (ops : List Op), p.Delivered ops := by
  intro h
  have hk : keyA.keymap 4 ≠ 0 := by rw [keymap_A]; decide
  have ha := (h keyA (List.replicate Keys.KEY_QUEUE_LEN (.key 4 true))).all
  have ⟨q', he, _⟩ := keybrd_eq (keyA.run (List.replicate Keys.KEY_QUEUE_LEN (.key 4 true))).fst
  rw [he, pending_of_burst hk, results_of_keys, events_of_keys (by decide) hk] at ha
  have hl := congrArg List.length (ha rfl)
  rw [List.length_replicate] at hl
  exact absurd hl (by decide)

end Am.Native.Input
