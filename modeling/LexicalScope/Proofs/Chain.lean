import LexicalScope.Proofs.Updates
import Mathlib.Data.List.Basic

/-!
The way up from a scope. In a rooted graph every scope but the global one lies inside a scope
with a smaller number, so the way up ends at the global scope and `chain` lists all of it. The
chain of a scope met on the way is the rest of the way.
-/
namespace LexicalScope

variable {ν : Type}

namespace ScopeGraph

def upper? (g : ScopeGraph ν) (s : ScopeId) : Option ScopeId :=
  (g.getScope? s).bind (·.upper)

/-- The way up from a scope: it and its uppers, as far as there are any. -/
inductive IsChain (g : ScopeGraph ν) : ScopeId → List ScopeId → Prop
  | outermost {s : ScopeId} {scope : Scope ν} (hs : g.getScope? s = some scope)
      (hupper : scope.upper = none) : IsChain g s [s]
  | inner {s u : ScopeId} {scope : Scope ν} {l : List ScopeId} (hs : g.getScope? s = some scope)
      (hupper : scope.upper = some u) (hl : IsChain g u l) : IsChain g s (s :: l)

/-- Uppers have smaller numbers, and only the global scope has none. -/
structure Rooted (g : ScopeGraph ν) : Prop where
  upper_lt : ∀ {s u}, g.upper? s = some u → u.index < s.index
  isGlobal : ∀ {s}, s.index < g.scopes.size → g.upper? s = none → s = .global

theorem getScope?_of_lt {g : ScopeGraph ν} {s : ScopeId} (hs : s.index < g.scopes.size) :
    ∃ scope, g.getScope? s = some scope :=
  ⟨g.scopes[s.index], Array.getElem?_eq_getElem hs⟩

theorem lt_of_getScope? {g : ScopeGraph ν} {s : ScopeId} {scope : Scope ν}
    (hs : g.getScope? s = some scope) : s.index < g.scopes.size :=
  (Array.getElem?_eq_some_iff.1 hs).1

theorem isSome_getScope?_iff {g : ScopeGraph ν} {s : ScopeId} :
    (g.getScope? s).isSome ↔ s.index < g.scopes.size :=
  ⟨fun h => lt_of_getScope? (Option.get_mem h), fun h => by simp [getScope?, h]⟩

namespace Rooted

variable {g : ScopeGraph ν} {s u : ScopeId}

theorem upper_size (hg : g.Rooted) (hs : s.index < g.scopes.size) (hu : g.upper? s = some u) :
    u.index < g.scopes.size :=
  Nat.lt_trans (hg.upper_lt hu) hs

/-- Upper scopes have smaller numbers, so fuel beyond the number of a scope changes nothing. -/
theorem chainWithin_fuel (hg : g.Rooted) {n m : Nat} (hn : s.index < n) (hm : s.index < m) :
    g.chainWithin n s = g.chainWithin m s := by
  induction n generalizing s m with
  | zero => omega
  | succ n ih =>
    cases m with
    | zero => omega
    | succ m =>
      simp only [chainWithin]
      cases hu : (g.getScope? s).bind (·.upper) with
      | none => rfl
      | some u =>
        have hlt := hg.upper_lt hu
        simpa using ih (s := u) (m := m) (by omega) (by omega)

/-- The chain recursion. -/
theorem chain_eq (hg : g.Rooted) (hs : s.index < g.scopes.size) :
    g.chain s = s :: (g.upper? s).elim [] g.chain := by
  obtain ⟨n, hn⟩ : ∃ n, g.scopes.size = n + 1 := ⟨g.scopes.size - 1, by omega⟩
  rw [chain, hn, chainWithin]
  show s :: (g.upper? s).elim [] (g.chainWithin n) = _
  cases hu : g.upper? s with
  | none => rfl
  | some u =>
    have hlt := hg.upper_lt hu
    simp only [Option.elim_some, chain]
    rw [hg.chainWithin_fuel (n := n) (m := g.scopes.size) (by omega) (by omega)]

theorem chain_inner (hg : g.Rooted) (hs : s.index < g.scopes.size) (hu : g.upper? s = some u) :
    g.chain s = s :: g.chain u := by
  rw [hg.chain_eq hs, hu, Option.elim_some]

theorem chain_outermost (hg : g.Rooted) (hs : s.index < g.scopes.size) (hu : g.upper? s = none) :
    g.chain s = [s] := by
  rw [hg.chain_eq hs, hu, Option.elim_none]

/-- Induction along the way up from a scope. -/
theorem chain_induction (hg : g.Rooted)
    {motive : (s : ScopeId) → s.index < g.scopes.size → Prop}
    (outermost : ∀ s hs, g.upper? s = none → motive s hs)
    (inner : ∀ s u hs (hu : g.upper? s = some u), motive u (hg.upper_size hs hu) → motive s hs)
    (s : ScopeId) (hs : s.index < g.scopes.size) : motive s hs := by
  obtain ⟨i⟩ := s
  induction i using Nat.strongRecOn with
  | ind i ih =>
    cases hu : g.upper? ⟨i⟩ with
    | none => exact outermost _ hs hu
    | some u => exact inner _ u hs hu (ih u.index (hg.upper_lt hu) (hg.upper_size hs hu))

/-- Each scope of a chain stands right below the next one. -/
theorem isChain_chain (hg : g.Rooted) (hs : s.index < g.scopes.size) :
    g.IsChain s (g.chain s) := by
  induction s, hs using hg.chain_induction with
  | outermost s hs hu =>
    obtain ⟨scope, hscope⟩ := getScope?_of_lt hs
    rw [hg.chain_outermost hs hu]
    exact .outermost hscope (by simpa [upper?, hscope] using hu)
  | inner s u hs hu ih =>
    obtain ⟨scope, hscope⟩ := getScope?_of_lt hs
    rw [hg.chain_inner hs hu]
    exact .inner hscope (by simpa [upper?, hscope] using hu) ih

/-- Every chain ends at the global scope. -/
theorem exists_chain_eq_append_global (hg : g.Rooted) (hs : s.index < g.scopes.size) :
    ∃ l, g.chain s = l ++ [.global] := by
  induction s, hs using hg.chain_induction with
  | outermost s hs hu =>
    rw [hg.chain_outermost hs hu, hg.isGlobal hs hu]
    exact ⟨[], rfl⟩
  | inner s u hs hu ih =>
    obtain ⟨l, hl⟩ := ih
    rw [hg.chain_inner hs hu, hl]
    exact ⟨s :: l, rfl⟩

theorem mem_chain_self (hg : g.Rooted) (hs : s.index < g.scopes.size) : s ∈ g.chain s := by
  rw [hg.chain_eq hs]
  exact List.mem_cons_self ..

theorem size_of_mem_chain (hg : g.Rooted) (hs : s.index < g.scopes.size) {x : ScopeId}
    (hx : x ∈ g.chain s) : x.index < g.scopes.size := by
  induction s, hs using hg.chain_induction with
  | outermost s hs hu =>
    rw [hg.chain_outermost hs hu, List.mem_singleton] at hx
    exact hx ▸ hs
  | inner s u hs hu ih =>
    rw [hg.chain_inner hs hu, List.mem_cons] at hx
    rcases hx with rfl | hx
    · exact hs
    · exact ih hx

theorem index_le_of_mem_chain (hg : g.Rooted) (hs : s.index < g.scopes.size) {x : ScopeId}
    (hx : x ∈ g.chain s) : x.index ≤ s.index := by
  induction s, hs using hg.chain_induction with
  | outermost s hs hu =>
    rw [hg.chain_outermost hs hu, List.mem_singleton] at hx
    exact Nat.le_of_eq (congrArg ScopeId.index hx)
  | inner s u hs hu ih =>
    rw [hg.chain_inner hs hu, List.mem_cons] at hx
    rcases hx with rfl | hx
    · exact Nat.le_refl _
    · exact Nat.le_trans (ih hx) (Nat.le_of_lt (hg.upper_lt hu))

/-- No scope is above itself. -/
theorem nodup_chain (hg : g.Rooted) (hs : s.index < g.scopes.size) : (g.chain s).Nodup := by
  induction s, hs using hg.chain_induction with
  | outermost s hs hu =>
    rw [hg.chain_outermost hs hu]
    simp
  | inner s u hs hu ih =>
    rw [hg.chain_inner hs hu, List.nodup_cons]
    apply And.intro _ ih
    intro hmem
    have hle := hg.index_le_of_mem_chain (hg.upper_size hs hu) hmem
    have hlt := hg.upper_lt hu
    omega

/-- From a scope on the way, the rest of the way is the chain of that scope. -/
theorem chain_suffix (hg : g.Rooted) {x : ScopeId} {below above : List ScopeId}
    (hs : s.index < g.scopes.size) (hchain : g.chain s = below ++ x :: above) :
    g.chain x = x :: above := by
  induction s, hs using hg.chain_induction generalizing below with
  | outermost s hs hu =>
    rw [hg.chain_outermost hs hu] at hchain
    cases below with
    | nil =>
      obtain ⟨rfl, rfl⟩ : s = x ∧ [] = above := by simpa using hchain
      exact hg.chain_outermost hs hu
    | cons y below => simp at hchain
  | inner s u hs hu ih =>
    cases below with
    | nil =>
      obtain ⟨rfl, -⟩ : s = x ∧ g.chain u = above := by
        simpa [hg.chain_inner hs hu] using hchain
      exact hchain
    | cons y below =>
      rw [hg.chain_inner hs hu, List.cons_append, List.cons.injEq] at hchain
      exact ih hchain.2

theorem exists_chain_eq_append (hg : g.Rooted) (hs : s.index < g.scopes.size) {x : ScopeId}
    (hx : x ∈ g.chain s) : ∃ below, g.chain s = below ++ g.chain x := by
  obtain ⟨below, above, hchain⟩ := List.append_of_mem hx
  exact ⟨below, by rw [hg.chain_suffix hs hchain, hchain]⟩

theorem mem_chain_trans (hg : g.Rooted) (hs : s.index < g.scopes.size) {x y : ScopeId}
    (hx : x ∈ g.chain s) (hy : y ∈ g.chain x) : y ∈ g.chain s := by
  obtain ⟨below, hchain⟩ := hg.exists_chain_eq_append hs hx
  exact hchain ▸ List.mem_append_right _ hy

/-- A graph in which the old scopes keep their uppers keeps their chains. -/
theorem chain_congr (hg : g.Rooted) {g' : ScopeGraph ν} (hg' : g'.Rooted)
    (hsize : g.scopes.size ≤ g'.scopes.size)
    (hupper : ∀ x : ScopeId, x.index < g.scopes.size → g'.upper? x = g.upper? x)
    (hs : s.index < g.scopes.size) : g'.chain s = g.chain s := by
  induction s, hs using hg.chain_induction with
  | outermost s hs hu =>
    rw [hg.chain_outermost hs hu, hg'.chain_outermost (by omega) (hupper s hs ▸ hu)]
  | inner s u hs hu ih =>
    rw [hg.chain_inner hs hu, hg'.chain_inner (by omega) (hupper s hs ▸ hu), ih]

end Rooted

end ScopeGraph

end LexicalScope
