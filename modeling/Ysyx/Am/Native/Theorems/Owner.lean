import Ysyx.Am.Native.Theorems.Space

-- Lists that do not end: a node that is put in front of its own list closes a circle for good.

namespace Am.Native

open Function (update)
open Linked (Path)

variable {s s' : State} {h h' p q va pa fresh : Ptr} {v v' : VMHead} {pp : PageMap} {l l' : List Ptr}
variable {c : Call} {n fuel : Nat} {as : AddrSpace} {prot : BitVec 32} {own : Ptr → Ptr}

theorem next_link : (s.link h p v pp).next = update s.next p (some pp.next) := by
  funext q
  rw [State.next, State.link]
  by_cases he : q = p <;> simp [State.next, he]

-- Every node belongs to one space, also where a page has been mapped again.
structure Owned (own : Ptr → Ptr) (s : State) : Prop where
  null : s.next NULL = none
  head : ∀ {h v}, s.heads h = some v → v.head = NULL ∨ own v.head = h ∧ s.next v.head ≠ none
  hash : ∀ {h v k p}, s.heads h = some v → v.hash k = some p → own p = h ∧ s.next p ≠ none
  next : ∀ {p q}, s.next p = some q → q = NULL ∨ own q = own p ∧ s.next q ≠ none

namespace Owned

theorem init : Owned id (vme_init State.init) where
  null := rfl
  head h := by cases h
  hash h := by cases h
  next h := by cases h

theorem of_path {r : Ptr} (o : Owned own s) (hp : Path s.next p l r) (ho : p = NULL ∨ own p = h) (hq : q ∈ l) :
    own q = h := by
  induction hp
  case nil => cases hq
  case cons p p' r l hn _ hi =>
    have ho := ho.resolve_left fun he => by rw [he, o.null] at hn; cases hn
    obtain rfl | hq := List.mem_cons.mp hq
    case inl => exact ho
    case inr => exact hi ((o.next hn).imp_right fun h => h.left.trans ho) hq

-- The nodes of the list of a space belong to it.
theorem own_of_mem (o : Owned own s) (hv : s.heads h = some v) (hp : Path s.next v.head l NULL) (hq : q ∈ l) :
    own q = h :=
  o.of_path hp ((o.head hv).imp_right And.left) hq

theorem protect (o : Owned own s) : Owned own (protect n h s).2 where
  null := o.null
  head hv := by
    obtain ⟨_, hn, _⟩ | ⟨_, hv⟩ := protect_head hv
    case inl => exact .inl hn
    case inr => exact o.head hv
  hash hv hk := by
    obtain ⟨_, _, hn⟩ | ⟨_, hv⟩ := protect_head hv
    case inl => rw [hn] at hk; cases hk
    case inr => exact o.hash hv hk
  next := o.next

theorem same (o : Owned own s) (hh : s'.heads = s.heads) (hn : s'.next = s.next) : Owned own s' where
  null := by rw [hn]; exact o.null
  head hv := by rw [hn]; exact o.head (hh ▸ hv)
  hash hv hk := by rw [hn]; exact o.hash (hh ▸ hv) hk
  next hp := by rw [hn]; exact o.next (hn ▸ hp)

section Link

variable (o : Owned own s) (hv : s.heads h = some v) (hp : s.next p = none ∨ own p = h)
include hp

-- A page that links refer to has its owner already.
theorem keep {x : Ptr} (hn : s.next q ≠ none) :
    update own p h q = own q ∧ update s.next p (some x) q ≠ none := by
  by_cases he : q = p
  case pos =>
    subst he
    rw [Function.update_self, Function.update_self]
    exact ⟨(hp.resolve_left hn).symm, Option.some_ne_none _⟩
  case neg =>
    rw [Function.update_of_ne he, Function.update_of_ne he]
    exact ⟨rfl, hn⟩

include o hv

theorem link (hne : p ≠ NULL) (hn : pp.next = v.head)
    (hk : ∀ {k q}, v'.hash k = some q → q = p ∨ v.hash k = some q) :
    Owned (update own p h) (s.link h p v' pp) where
  null := by
    rw [next_link, Function.update_of_ne hne.symm]
    exact o.null
  head {h' w} hw := by
    rw [next_link]
    obtain ⟨rfl, rfl⟩ | ⟨_, hw⟩ := update_some hw
    case inl => exact .inr ⟨Function.update_self .., by rw [Function.update_self]; exact Option.some_ne_none _⟩
    case inr =>
      refine (o.head hw).imp_right fun ⟨ho, hq⟩ => ?_
      exact (keep hp hq).imp_left fun hu => hu.trans ho
  hash {h' w k q} hw hq := by
    rw [next_link]
    have hold {h' : Ptr} {w : VMHead} (hw : s.heads h' = some w) (hq : w.hash k = some q) :
        update own p h q = h' ∧ update s.next p (some pp.next) q ≠ none := by
      have ⟨ho, hq⟩ := o.hash hw hq
      exact (keep hp hq).imp_left fun hu => hu.trans ho
    obtain ⟨rfl, rfl⟩ | ⟨_, hw⟩ := update_some hw
    case inl =>
      obtain rfl | hq := hk hq
      case inl =>
        rw [Function.update_self, Function.update_self]
        exact ⟨rfl, Option.some_ne_none _⟩
      case inr => exact hold hv hq
    case inr => exact hold hw hq
  next {q r} hq := by
    rw [next_link] at hq ⊢
    obtain ⟨rfl, rfl⟩ | ⟨he, hq⟩ := update_some hq
    case inl =>
      rw [hn, Function.update_self]
      refine (o.head hv).imp_right fun ⟨ho, hr⟩ => ?_
      exact (keep hp hr).imp_left fun hu => hu.trans ho
    case inr =>
      rw [Function.update_of_ne he]
      refine (o.next hq).imp_right fun ⟨ho, hr⟩ => ?_
      exact (keep hp hr).imp_left fun hu => hu.trans ho

end Link

end Owned

def Ends (s : State) : Prop :=
  ∀ h v, s.heads h = some v → ∃ l, Path s.next v.head l NULL

-- Lists that end behind `map` have ended before, and the one of the space does not contain the node.
theorem Ends.of_link (e : Ends (s.link h p v' pp)) (o : Owned (update own p h) (s.link h p v' pp))
    (hv : s.heads h = some v) (hne : p ≠ NULL) (hn : pp.next = v.head) :
    Ends s ∧ ∃ l, Path s.next v.head l NULL ∧ p ∉ l := by
  have hback {q l} (hq : Path (s.link h p v' pp).next q l NULL) (hm : p ∉ l) : Path s.next q l NULL := by
    refine hq.congr fun r hr => ?_
    have hne : r ≠ p := fun he => hm (he ▸ hr)
    rw [next_link, Function.update_of_ne hne]
  have hself : ∃ l, Path s.next v.head l NULL ∧ p ∉ l := by
    have ⟨l, hl⟩ := e h _ (Function.update_self ..)
    have hd := hl.nodup o.null
    cases hl
    case nil => cases hne rfl
    case cons hp hl =>
      rw [next_link, Function.update_self, hn] at hp
      cases hp
      have ⟨hm, _⟩ := List.nodup_cons.mp hd
      exact ⟨_, hback hl hm, hm⟩
  refine ⟨fun h' w hw => ?_, hself⟩
  by_cases he : h' = h
  case pos =>
    cases hw.symm.trans (he ▸ hv)
    have ⟨l, hl, _⟩ := hself
    exact ⟨l, hl⟩
  case neg =>
    have hw : (s.link h p v' pp).heads h' = some w := (Function.update_of_ne he ..).trans hw
    have ⟨l, hl⟩ := e h' w hw
    refine ⟨l, hback hl fun hm => he ?_⟩
    exact (o.own_of_mem hw hl hm).symm.trans (Function.update_self ..)

section Switch

variable {body : Ptr → State → Option State}

-- The lists of the spaces are left alone.
def Same (s s' : State) : Prop :=
  s'.heads = s.heads ∧ s'.next = s.next

theorem Same.trans {s'' : State} (h : Same s s') (h' : Same s' s'') : Same s s'' :=
  ⟨h'.left.trans h.left, h'.right.trans h.right⟩

theorem setPage_same {b : Bool} (h : s.pages p = some pp) : Same s (s.setPage p { pp with is_mapped := b }) := by
  refine ⟨rfl, funext fun q => ?_⟩
  by_cases he : q = p <;> simp [State.next, State.setPage, he, h]

theorem unmapPage_same (h : unmapPage p s = some s') : Same s s' := by
  have ⟨pp, hp, h⟩ := Option.bind_eq_some_iff.mp h
  split at h
  case isTrue => cases h; exact setPage_same (s := s.am_pmem_unmap pp.va) hp
  case isFalse => cases h; exact ⟨rfl, rfl⟩

theorem mapPage_same (h : mapPage p s = some s') : Same s s' := by
  have ⟨pp, hp, h⟩ := Option.bind_eq_some_iff.mp h
  split at h
  case isTrue => cases h; exact setPage_same (s := s.am_pmem_map pp.va pp.pa pp.prot) hp
  case isFalse => cases h

theorem list_foreach_same (hb : ∀ {p s s'}, body p s = some s' → Same s s')
    (h : list_foreach body fuel p s = some s') : Same s s' := by
  induction fuel generalizing p s
  case zero => cases h
  case succ fuel hi =>
    rw [list_foreach] at h
    split at h
    case isTrue => cases h; exact ⟨rfl, rfl⟩
    case isFalse =>
      obtain ⟨s₁, hs, h⟩ := Option.bind_eq_some_iff.mp h
      obtain ⟨_, _, h⟩ := Option.bind_eq_some_iff.mp h
      exact (hb hs).trans (hi h)

theorem unmapAll_same (hs : unmapAll fuel h s = some s') : Same s s' := by
  rw [unmapAll] at hs
  split at hs
  case isTrue =>
    obtain ⟨_, _, hs⟩ := Option.bind_eq_some_iff.mp hs
    exact list_foreach_same unmapPage_same hs
  case isFalse => cases hs; exact ⟨rfl, rfl⟩

theorem mapAll_same (hs : mapAll fuel h s = some s') : Same s s' := by
  rw [mapAll] at hs
  split at hs
  case isTrue =>
    obtain ⟨_, _, hs⟩ := Option.bind_eq_some_iff.mp hs
    exact list_foreach_same mapPage_same hs
  case isFalse => cases hs; exact ⟨rfl, rfl⟩

theorem am_switch_same (hs : am_switch fuel h s = some s') : Same s s' := by
  rw [am_switch] at hs
  split at hs
  case isTrue => cases hs; exact ⟨rfl, rfl⟩
  case isFalse =>
    split at hs
    case isTrue => cases hs; exact ⟨rfl, rfl⟩
    case isFalse =>
      obtain ⟨_, hu, hs⟩ := Option.bind_eq_some_iff.mp hs
      obtain ⟨_, hm, hs⟩ := Option.bind_eq_some_iff.mp hs
      obtain ⟨hh, hn⟩ := (unmapAll_same hu).trans (mapAll_same hm)
      cases hs
      exact ⟨hh, hn⟩

end Switch

-- The node of a call of `map`, in any state.
theorem Owned.map_cases (o : Owned own s) (hf : s.Allocates as.ptr va → s.Fresh fresh)
    (hs : map n as va pa prot fresh s = some s') : ∃ v p v' pp,
    s.heads as.ptr = some v ∧ p ≠ NULL ∧ pp.next = v.head ∧ s' = s.link as.ptr p v' pp ∧
    (v.hash (snprintf va) ≠ none → v.hash (snprintf va) = some p) ∧ Owned (update own p as.ptr) s' := by
  obtain ⟨v, p, pp, v', _, _, hv, hp, he⟩ := Native.map_cases hs
  obtain ⟨hh, hc⟩ := node_cases hp
  obtain ⟨hk, rfl, hk'⟩ | ⟨hk, hk'⟩ := hc
  case inl =>
    have hf := hf ⟨v, hv, hk⟩
    refine ⟨v, p, v', _, hv, hf.null, hh, he, fun hn => absurd hk hn, ?_⟩
    rw [he]
    refine o.link hv (.inl (by simp [State.next, hf.page])) hf.null hh fun {k q} hq => ?_
    rw [hk'] at hq
    exact (update_some hq).imp And.right And.right
  case inr =>
    obtain ⟨ho, hn⟩ := o.hash hv hk
    have hne : p ≠ NULL := fun he => hn (he ▸ o.null)
    refine ⟨v, p, v', _, hv, hne, hh, he, fun _ => hk, ?_⟩
    rw [he]
    exact o.link hv (.inr ho) hne hh fun hq => .inr (hk' ▸ hq)

end Am.Native
