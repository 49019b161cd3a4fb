import LexicalScope.Proofs.Links
import LexicalScope.Proofs.WellFormed
import Mathlib.Data.List.TakeWhile

/-!
Where references are while scopes are open. The open scopes are a chain. A reference has come up
through the closed scopes on its way: either one of them had a variable for it, and the
reference is bound to the first of these, or it waits in the innermost open scope on its way.
Closing the innermost open scope keeps this picture, with one scope less open.
-/
namespace LexicalScope

def Ascending (ids : List ReferenceId) : Prop :=
  ids.Pairwise (·.index < ·.index)

namespace ScopeGraph

variable {ν : Type}

section Way

variable {g : ScopeGraph ν} {r : ReferenceId} {s x : ScopeId} {outer : List ScopeId}

/-- The closed scopes that a reference has come through. -/
def climbed (g : ScopeGraph ν) (opened : List ScopeId) (r : ReferenceId) : List ScopeId :=
  (g.wayOf r).takeWhile (· ∉ opened)

theorem mem_climbed {opened : List ScopeId} (hx : x ∈ g.climbed opened r) :
    x ∈ g.wayOf r ∧ x ∉ opened :=
  ⟨(List.takeWhile_prefix _).subset hx, by simpa using List.mem_takeWhile_imp hx⟩

theorem climbed_nil (g : ScopeGraph ν) (r : ReferenceId) : g.climbed [] r = g.wayOf r := by
  simp only [climbed, List.not_mem_nil, not_false_eq_true, decide_true]
  exact List.takeWhile_eq_self_iff.2 fun _ _ => rfl

private theorem takeWhile_append_disjoint {l m : List ScopeId} (h : ∀ x ∈ l, x ∉ m) :
    (l ++ m).takeWhile (· ∉ m) = l := by
  rw [List.takeWhile_append_of_pos fun x hx => decide_eq_true (h x hx)]
  cases m <;> simp

/-- A scope that closes makes no difference to references that do not come to it. -/
theorem climbed_eq_of_not_mem (hs : s ∉ g.wayOf r) :
    g.climbed outer r = g.climbed (s :: outer) r := by
  unfold climbed
  generalize g.wayOf r = way at hs ⊢
  induction way with
  | nil => rfl
  | cons x way ih =>
    simp only [List.mem_cons, not_or] at hs
    have hx : x ∉ s :: outer ↔ x ∉ outer := by simp [Ne.symm hs.1]
    simp only [List.takeWhile_cons, hx, ih hs.2]

variable [DecidableEq ν]

namespace WellFormed

theorem exists_wayOf_eq (hg : g.WellFormed) (hx : x ∈ g.wayOf r) :
    ∃ origin : ScopeId, origin.index < g.scopes.size ∧ g.wayOf r = g.chain origin := by
  unfold wayOf at hx ⊢
  cases hr : g.getReference? r with
  | none => simp [hr] at hx
  | some reference => exact ⟨reference.origin, hg.origin_lt hr, rfl⟩

theorem size_of_mem_wayOf (hg : g.WellFormed) (hx : x ∈ g.wayOf r) :
    x.index < g.scopes.size := by
  obtain ⟨origin, horigin, hway⟩ := hg.exists_wayOf_eq hx
  exact hg.size_of_mem_chain horigin (hway ▸ hx)

theorem exists_wayOf_eq_append (hg : g.WellFormed) (hx : x ∈ g.wayOf r) :
    ∃ below, g.wayOf r = below ++ g.chain x := by
  obtain ⟨origin, horigin, hway⟩ := hg.exists_wayOf_eq hx
  rw [hway] at hx ⊢
  exact hg.exists_chain_eq_append horigin hx

theorem nodup_wayOf (hg : g.WellFormed) (hx : x ∈ g.wayOf r) : (g.wayOf r).Nodup := by
  obtain ⟨origin, horigin, hway⟩ := hg.exists_wayOf_eq hx
  rw [hway]
  exact hg.nodup_chain horigin

/-- Below an open scope a reference only comes through closed ones. -/
theorem wayOf_eq_climbed_append (hg : g.WellFormed) (hchain : g.chain s = s :: outer)
    (hs : s ∈ g.wayOf r) : g.wayOf r = g.climbed (s :: outer) r ++ s :: outer ∧
      g.climbed outer r = g.climbed (s :: outer) r ++ [s] := by
  obtain ⟨below, hway⟩ := hg.exists_wayOf_eq_append hs
  have hnodup := hg.nodup_wayOf hs
  rw [hway, hchain, List.nodup_append] at hnodup
  obtain ⟨-, houter, hdisjoint⟩ := hnodup
  have hclimbed : g.climbed (s :: outer) r = below := by
    rw [climbed, hway, hchain]
    exact takeWhile_append_disjoint fun x hx hmem => hdisjoint x hx x hmem rfl
  refine ⟨by rw [hclimbed, hway, hchain], ?_⟩
  rw [hclimbed, climbed, hway, hchain, List.append_cons]
  apply takeWhile_append_disjoint
  intro x hx hmem
  rcases List.mem_append.1 hx with hx | hx
  · exact hdisjoint x hx x (List.mem_cons_of_mem _ hmem) rfl
  · exact (List.nodup_cons.1 houter).1 (List.mem_singleton.1 hx ▸ hmem)

theorem mem_chain_of_mem_climbed (hg : g.WellFormed) (hchain : g.chain s = s :: outer)
    (hs : s ∈ g.wayOf r) (hx : x ∈ g.climbed (s :: outer) r) : s ∈ g.chain x := by
  obtain ⟨origin, horigin, hway⟩ := hg.exists_wayOf_eq hs
  obtain ⟨below, above, hclimbed⟩ := List.append_of_mem hx
  have hsplit := (hg.wayOf_eq_climbed_append hchain hs).1
  rw [hway, hclimbed, List.append_assoc, List.cons_append] at hsplit
  rw [hg.chain_suffix horigin hsplit]
  simp

end WellFormed

end Way

section Offers

variable [DecidableEq ν] {g : ScopeGraph ν} {t : Tree} {r r' : ReferenceId} {s s' : ScopeId}
  {v : VariableId}

/-- A reference resolves to a visible variable of its name. -/
theorem inTable?_of_resolution? (h : g.resolution? t s r = some v) :
    ∃ reference, g.getReference? r = some reference ∧
      g.inTable? s reference.name = some v ∧ g.isVisible t s reference v := by
  simp only [resolution?, Option.bind_eq_bind, Option.bind_eq_some_iff] at h
  obtain ⟨reference, hr, v', hv', h⟩ := h
  split at h
  · next hvisible =>
    obtain rfl : v' = v := Option.some.inj h
    exact ⟨reference, hr, hv', hvisible⟩
  · cases h

theorem resolution?_of_offer? (h : g.offer? t r s = some v) : g.resolution? t s r = some v := by
  unfold offer? at h
  split at h
  · cases h
  · exact h

theorem WellFormed.owns_of_offer? (hg : g.WellFormed) (h : g.offer? t r s = some v) :
    ∃ name, g.Owns s name v := by
  obtain ⟨reference, _, hv, _⟩ := inTable?_of_resolution? (resolution?_of_offer? h)
  exact ⟨_, hg.inTable hv⟩

/-- A variable is offered by its own scope only. -/
theorem WellFormed.offer?_unique (hg : g.WellFormed) (h : g.offer? t r s = some v)
    (h' : g.offer? t r' s' = some v) : s = s' := by
  obtain ⟨name, howns⟩ := hg.owns_of_offer? h
  obtain ⟨name', howns'⟩ := hg.owns_of_offer? h'
  exact howns.scope_unique howns'

end Offers

variable [DecidableEq ν]

structure Settled (g : ScopeGraph ν) (t : Tree) (opened : List ScopeId) : Prop where
  resolved : ∀ r, g.resolvedOf r = (g.climbed opened r).findSome? (g.offer? t r)
  links : ∀ v r, r ∈ g.linksOf v ↔ g.resolvedOf r = some v
  links_ascending : ∀ v, Ascending (g.linksOf v)
  pending : ∀ s ∈ opened, ∀ r, r ∈ g.pendingOf s ↔
    g.resolvedOf r = none ∧ g.wayOf r = g.climbed opened r ++ g.chain s
  pending_closed : ∀ s, s ∉ opened → g.pendingOf s = []
  /-- What waits further in is younger. -/
  pending_ascending : Ascending (opened.reverse.flatMap g.pendingOf)
  through_open : ∀ s ∈ opened, g.throughOf s = []
  /-- What came through a closed scope met nothing up to there. -/
  through : ∀ s, s ∉ opened → ∀ r, r ∈ g.throughOf s ↔
    s ∈ g.wayOf r ∧ ∀ x ∈ g.wayOf r, s ∈ g.chain x → g.offer? t r x = none
  through_ascending : ∀ s, Ascending (g.throughOf s)

theorem findSome?_congr {f f' : ScopeId → Option VariableId} {l : List ScopeId}
    (h : ∀ x ∈ l, f x = f' x) : l.findSome? f = l.findSome? f' := by
  induction l with
  | nil => rfl
  | cons x l ih =>
    rw [List.findSome?_cons, List.findSome?_cons, h x (List.mem_cons_self ..),
      ih fun y hy => h y (List.mem_cons_of_mem _ hy)]

namespace Settled

variable {g g' : ScopeGraph ν} {t : Tree} {opened outer : List ScopeId} {s : ScopeId}

/-- Open scopes may change their tables. -/
theorem frame (h : Settled g t opened) (hopened : ∀ x ∈ opened, ∀ y ∈ g.chain x, y ∈ opened)
    (hframe : Frame opened g g') (hlinks : SameLinks g g') : Settled g' t opened := by
  have hclimbed (r : ReferenceId) : g'.climbed opened r = g.climbed opened r := by
    rw [climbed, hframe.wayOf, climbed]
  exact {
    resolved := by
      intro r
      rw [hlinks.resolvedOf, h.resolved, hclimbed]
      exact findSome?_congr fun x hx => (hframe.offer? t r (mem_climbed hx).2).symm
    links := by
      intro v r
      rw [hlinks.linksOf, hlinks.resolvedOf]
      exact h.links v r
    links_ascending := by
      intro v
      rw [hlinks.linksOf]
      exact h.links_ascending v
    pending := by
      intro x hx r
      rw [hlinks.pendingOf, hlinks.resolvedOf, hframe.wayOf, hclimbed, hframe.positions.chain]
      exact h.pending x hx r
    pending_closed := by
      intro x hx
      rw [hlinks.pendingOf]
      exact h.pending_closed x hx
    pending_ascending := by
      rw [funext hlinks.pendingOf]
      exact h.pending_ascending
    through_open := by
      intro x hx
      rw [hlinks.throughOf]
      exact h.through_open x hx
    through := by
      intro x hx r
      rw [hlinks.throughOf, h.through x hx, hframe.wayOf]
      apply and_congr_right
      intro _
      apply forall₂_congr
      intro y _
      rw [hframe.positions.chain]
      apply imp_congr_right
      intro hxy
      rw [hframe.offer? t r fun hy => hx (hopened y hy x hxy)]
    through_ascending := by
      intro x
      rw [hlinks.throughOf]
      exact h.through_ascending x }

/-- Whatever waits is a reference. -/
theorem isSome_getReference? (h : Settled g t opened) (hg : g.WellFormed)
    (hs : s.index < g.scopes.size) (hopened : s ∈ opened) {r : ReferenceId}
    (hr : r ∈ g.pendingOf s) : (g.getReference? r).isSome := by
  have hway := ((h.pending s hopened r).1 hr).2
  have hmem : s ∈ g.wayOf r := by
    rw [hway]
    exact List.mem_append_right _ (hg.mem_chain_self hs)
  unfold wayOf at hmem
  cases href : g.getReference? r with
  | none => simp [href] at hmem
  | some reference => rfl

end Settled

end ScopeGraph

end LexicalScope
