import Ysyx.Am.Native.Theorems.Owner

-- The spaces are right until a page is mapped again.

namespace Am.Native

open Function (update)
open Linked (Path)

variable {s s' : State} {h h' p q va va' pa fresh : Ptr} {v v' : VMHead} {pp pp' : PageMap} {l l' : List Ptr}
variable {c : Call} {cs : List Call} {n fuel : Nat} {as : AddrSpace} {prot : BitVec 32}
variable {ls : Ptr → List Ptr} {own : Ptr → Ptr}

theorem Inv.correct (i : Inv (spaces cs) ls s) : Correct cs s where
  list _ _ hv := i.represents hv
  switch _ hh := by
    have ⟨fuel, s', hs⟩ := i.am_switch_some hh
    exact ⟨fuel, s', hs, (i.am_switch hs).right⟩

theorem spaces_none : spaces cs h va = none ↔ (h, va) ∉ cs.filterMap Call.page? := by
  induction cs
  case nil => simp [spaces]
  case cons c cs hi =>
    cases c
    case protect => exact hi
    case switch => exact hi
    case map as va' pa prot fresh =>
      have : (Call.map as va' pa prot fresh :: cs).filterMap Call.page? =
          (as.ptr, va') :: cs.filterMap Call.page? := rfl
      rw [spaces, this, List.mem_cons, not_or, ← hi, Prod.mk.injEq]
      by_cases hh : h = as.ptr
      case pos =>
        rw [hh, Call.apply, Function.update_self]
        by_cases hv : va = va' <;> simp [hv]
      case neg => simp [Call.apply, hh]

-- A step keeps the invariant unless it maps a page again.
theorem Inv.step {sp : Spaces} {ls : Ptr → List Ptr} (i : Inv sp ls s) (hs : Step n s c s')
    (hc : ∀ h va, c.page? = some (h, va) → sp h va = none) : ∃ ls', Inv (c.apply sp) ls' s' := by
  cases hs
  case protect hf => exact ⟨ls, i.protect hf⟩
  case map hf hs => exact ⟨_, i.map hf (hc _ _ rfl) hs⟩
  case switch hs => exact ⟨ls, (i.am_switch hs).left⟩

theorem Run.inv (r : Run n cs s) (ho : Once cs) : ∃ ls, Inv (spaces cs) ls s := by
  induction r
  case nil => exact ⟨_, inv_init⟩
  case cons c cs s s' _ hs hi =>
    cases hp : c.page?
    case none =>
      rw [Once, List.filterMap_cons_none hp] at ho
      have ⟨ls, i⟩ := hi ho
      exact i.step hs fun h va hc => by cases hp.symm.trans hc
    case some x =>
      rw [Once, List.filterMap_cons_some hp] at ho
      have ⟨hm, ho⟩ := List.nodup_cons.mp ho
      have ⟨ls, i⟩ := hi ho
      refine i.step hs fun h va hc => spaces_none.mpr ?_
      cases hp.symm.trans hc
      exact hm

theorem Owned.step (o : Owned own s) (hs : Step n s c s') : ∃ own', Owned own' s' := by
  cases hs
  case protect => exact ⟨own, o.protect⟩
  case map hf hs =>
    have ⟨_, _, _, _, _, _, _, _, _, o'⟩ := o.map_cases hf hs
    exact ⟨_, o'⟩
  case switch hs =>
    have ⟨hh, hn⟩ := am_switch_same hs
    exact ⟨own, o.same hh hn⟩

theorem Run.owned (r : Run n cs s) : ∃ own, Owned own s := by
  induction r
  case nil => exact ⟨id, .init⟩
  case cons hs hi =>
    have ⟨_, o⟩ := hi
    exact o.step hs

-- Lists that end have ended before a step, and the step did not map a page again.
theorem Ends.of_step (e : Ends s') (o : Owned own s) (hs : Step n s c s') : Ends s ∧
    ∀ {sp ls h va}, Inv sp ls s → c.page? = some (h, va) → sp h va = none := by
  cases hs
  case protect hf =>
    refine ⟨fun h v hv => e h v (protect_of_head hf hv), fun _ hc => by cases hc⟩
  case switch hs =>
    have ⟨hh, hn⟩ := am_switch_same hs
    refine ⟨fun h v hv => ?_, fun _ hc => by cases hc⟩
    rw [← hn]
    exact e h v (hh ▸ hv)
  case map as va pa prot fresh hf hs =>
    have ⟨v, p, v', pp, hv, hne, hn, hl, hk, o'⟩ := o.map_cases hf hs
    rw [hl] at e o'
    have ⟨e, l, hl, hm⟩ := e.of_link o' hv hne hn
    refine ⟨e, fun {sp ls h va'} i hc => Option.eq_none_iff_forall_ne_some.mpr fun x hx => hm ?_⟩
    cases hc
    have ⟨hr, w, hw, hkw⟩ := i.listed hx
    cases hv.symm.trans hw
    have ⟨hp, _⟩ := i.found hv hr (hk hkw)
    rw [hl.unique (i.path hv) o.null]
    exact hp

theorem once_cons (hc : ∀ h va, c.page? = some (h, va) → spaces cs h va = none) (ho : Once cs) : Once (c :: cs) := by
  cases hp : c.page?
  case none => rw [Once, List.filterMap_cons_none hp]; exact ho
  case some x =>
    rw [Once, List.filterMap_cons_some hp]
    exact List.nodup_cons.mpr ⟨spaces_none.mp (hc _ _ hp), ho⟩

theorem Run.once (r : Run n cs s) (e : Ends s) : Once cs := by
  induction r
  case nil => exact List.nodup_nil
  case cons r hs hi =>
    have ⟨_, o⟩ := r.owned
    have ⟨e, hc⟩ := e.of_step o hs
    have ho := hi e
    have ⟨_, i⟩ := r.inv ho
    exact once_cons (fun _ _ => hc i) ho

-- The node of a page that is mapped twice refers to itself.
theorem not_correct : ∃ n cs s, Run n cs s ∧ ¬Correct cs s := by
  let c (pa : Ptr) := Call.map ⟨4096, USER_SPACE, 0x1000000⟩ 0x40000000 pa MMAP_READ 0x1001000
  have r : Run 4096 [.protect 0x1000000] _ := .cons .nil (.protect ⟨by decide, rfl, rfl⟩)
  have r : Run 4096 [c 0x1002000, .protect 0x1000000] _ :=
    r.cons (.map (fun _ => ⟨by decide, rfl, by decide⟩) rfl)
  have r : Run 4096 [c 0x1003000, c 0x1002000, .protect 0x1000000] _ :=
    r.cons (.map (fun ⟨_, hv, hn⟩ => by cases hv; cases hn) rfl)
  refine ⟨_, _, _, r, fun h => ?_⟩
  have ⟨_, hl, _⟩ := h.list 0x1000000 _ rfl
  refine Path.not_of_cycle (p := 0x1001000) (.cons ?_ .nil) ?_ hl <;> rfl

-- The lists, the switches and the host are right exactly as long as no page is mapped again in its space.
theorem correct_iff_once (r : Run n cs s) : Correct cs s ↔ Once cs where
  mp h := r.once fun _ v hv => by
    have ⟨l, hl, _⟩ := h.list _ v hv
    exact ⟨l, hl⟩
  mpr ho := by
    have ⟨_, i⟩ := r.inv ho
    exact i.correct

-- A page is mapped once.
def mapsOnce : List Call :=
  [.map ⟨4096, USER_SPACE, 0x1000000⟩ 0x40000000 0x1002000 MMAP_READ 0x1001000, .protect 0x1000000]

theorem correct_iff_once_map : ∃ s, Run 4096 mapsOnce s ∧ Correct mapsOnce s := by
  have r : Run 4096 [.protect 0x1000000] _ := .cons .nil (.protect ⟨by decide, rfl, rfl⟩)
  have r : Run 4096 mapsOnce _ := r.cons (.map (fun _ => ⟨by decide, rfl, by decide⟩) rfl)
  exact ⟨_, r, (correct_iff_once r).mpr (List.nodup_cons.mpr ⟨List.not_mem_nil, List.nodup_nil⟩)⟩

end Am.Native
