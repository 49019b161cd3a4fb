import LexicalScope.Syntax.Build
import Mathlib.Data.List.Nodup

/-!
Parents and ancestors. In a finished tree the parent of a node is the last node that lists it, and
the root has none. Parents have larger numbers, so the way up ends. If every node has at most one
place, the parent is the only node that lists it, and no child of a node lies within another one.
-/
namespace LexicalScope

namespace Tree

variable {t : Tree}

def childrenOf (t : Tree) (n : NodeId) : List NodeId :=
  (t.kind? n).elim [] NodeKind.children

theorem mem_childrenOf_iff {c p : NodeId} :
    c ∈ t.childrenOf p ↔ ∃ kind, t.kind? p = some kind ∧ c ∈ kind.children := by
  rw [childrenOf]
  cases t.kind? p <;> simp

theorem kind?_eq_some_iff {n : NodeId} {kind : NodeKind} :
    t.kind? n = some kind ↔ ∃ h : n.index < t.nodes.size, t.nodes[n.index].kind = kind := by
  simp only [kind?, node?, Option.map_eq_some_iff, Array.getElem?_eq_some_iff]
  constructor
  · rintro ⟨node, ⟨h, rfl⟩, rfl⟩
    exact ⟨h, rfl⟩
  · rintro ⟨h, rfl⟩
    exact ⟨_, ⟨h, rfl⟩, rfl⟩

theorem exists_kind?_of_lt (t : Tree) {n : NodeId} (h : n.index < t.size) :
    ∃ kind, t.kind? n = some kind :=
  ⟨_, kind?_eq_some_iff.2 ⟨h, rfl⟩⟩

theorem index_lt_size_of_mem_childrenOf {c p : NodeId} (h : c ∈ t.childrenOf p) :
    p.index < t.size := by
  obtain ⟨kind, hkind, -⟩ := mem_childrenOf_iff.1 h
  exact (kind?_eq_some_iff.1 hkind).1

/-- Children have smaller numbers than the nodes that list them. -/
theorem index_lt_of_mem_childrenOf {c p : NodeId} (h : c ∈ t.childrenOf p) :
    c.index < p.index := by
  obtain ⟨kind, hkind, hc⟩ := mem_childrenOf_iff.1 h
  obtain ⟨hp, rfl⟩ := kind?_eq_some_iff.1 hkind
  exact t.childrenBelow p.index hp c hc

/-- Every node is listed by at most one node, at one position. -/
def UniquePlaces (t : Tree) : Prop :=
  (t.nodes.toList.flatMap (·.kind.children)).Nodup

instance (t : Tree) : Decidable t.UniquePlaces :=
  inferInstanceAs (Decidable (List.Nodup _))

namespace UniquePlaces

variable (h : t.UniquePlaces)
include h

/-- No node lists a child twice where places are unique. -/
theorem nodup_childrenOf (p : NodeId) : (t.childrenOf p).Nodup := by
  rw [childrenOf]
  cases hkind : t.kind? p with
  | none => exact List.nodup_nil
  | some kind =>
    obtain ⟨hp, rfl⟩ := kind?_eq_some_iff.1 hkind
    exact (List.nodup_flatMap.1 h).1 _ (Array.getElem_mem_toList hp)

/-- No child has two parents where places are unique. -/
theorem parent_unique {c p q : NodeId} (hp : c ∈ t.childrenOf p) (hq : c ∈ t.childrenOf q) :
    p = q := by
  have hpairwise := List.pairwise_iff_getElem.1 (List.nodup_flatMap.1 h).2
  have hdisjoint {p q : NodeId} (hp : c ∈ t.childrenOf p) (hq : c ∈ t.childrenOf q) :
      ¬p.index < q.index := by
    intro hlt
    obtain ⟨kind, hkind, hc⟩ := mem_childrenOf_iff.1 hp
    obtain ⟨kind', hkind', hc'⟩ := mem_childrenOf_iff.1 hq
    obtain ⟨hp, rfl⟩ := kind?_eq_some_iff.1 hkind
    obtain ⟨hq, rfl⟩ := kind?_eq_some_iff.1 hkind'
    have hdis := hpairwise p.index q.index (by simpa using hp) (by simpa using hq) hlt
    rw [Array.getElem_toList, Array.getElem_toList] at hdis
    exact List.disjoint_left.1 hdis hc hc'
  have hpq := hdisjoint hp hq
  have hqp := hdisjoint hq hp
  obtain ⟨p⟩ := p
  obtain ⟨q⟩ := q
  simp only [NodeId.mk.injEq] at hpq hqp ⊢
  omega

end UniquePlaces

end Tree

section Link

theorem size_linkChildren (parents : Array (Option NodeId)) (p : NodeId) (children : List NodeId) :
    (linkChildren parents p children).size = parents.size := by
  unfold linkChildren
  induction children generalizing parents with
  | nil => rfl
  | cons c children ih => rw [List.foldl_cons, ih, Array.size_setIfInBounds]

/-- One more lister becomes the parent of what it lists and changes no other parent. -/
theorem getElem?_linkChildren (parents : Array (Option NodeId)) (p c : NodeId)
    (children : List NodeId) (hc : c.index < parents.size) :
    (linkChildren parents p children)[c.index]? =
      if c ∈ children then some (some p) else parents[c.index]? := by
  unfold linkChildren
  induction children generalizing parents with
  | nil => simp
  | cons x children ih =>
    rw [List.foldl_cons, ih _ (by rwa [Array.size_setIfInBounds])]
    obtain ⟨x⟩ := x
    obtain ⟨c⟩ := c
    by_cases hmem : NodeId.mk c ∈ children
    · simp [hmem]
    · by_cases hx : x = c
      · subst hx
        rw [if_neg hmem, Array.getElem?_setIfInBounds_self_of_lt hc]
        simp
      · rw [if_neg hmem, Array.getElem?_setIfInBounds_ne hx]
        simp [hmem, Ne.symm hx]

def listedBy (nodes : Array Node) (i : Nat) : List NodeId :=
  nodes[i]?.elim [] (·.kind.children)

/-- The parents as the nodes before number `k` have them. -/
def linkedBefore (nodes : Array Node) (k : Nat) : Array (Option NodeId) :=
  (List.range k).foldl (fun ps i => linkChildren ps ⟨i⟩ (listedBy nodes i))
    (Array.replicate nodes.size none)

/-- The nodes before number `k` that list `c`, in order. -/
def listersBefore (nodes : Array Node) (c : NodeId) (k : Nat) : List NodeId :=
  ((List.range k).map NodeId.mk).filter fun p => c ∈ listedBy nodes p.index

theorem linkedBefore_succ (nodes : Array Node) (k : Nat) :
    linkedBefore nodes (k + 1) =
      linkChildren (linkedBefore nodes k) ⟨k⟩ (listedBy nodes k) := by
  rw [linkedBefore, List.range_succ, List.foldl_append]
  rfl

theorem listersBefore_succ (nodes : Array Node) (c : NodeId) (k : Nat) :
    listersBefore nodes c (k + 1) =
      listersBefore nodes c k ++ if c ∈ listedBy nodes k then [⟨k⟩] else [] := by
  rw [listersBefore, List.range_succ, List.map_append, List.filter_append, List.map_singleton,
    List.filter_singleton, listersBefore]
  by_cases hmem : c ∈ listedBy nodes k <;> simp [hmem]

theorem size_linkedBefore (nodes : Array Node) (k : Nat) :
    (linkedBefore nodes k).size = nodes.size := by
  induction k with
  | zero => exact Array.size_replicate
  | succ k ih => rw [linkedBefore_succ, size_linkChildren, ih]

/-- The parent so far is the last lister so far. -/
theorem getElem?_linkedBefore (nodes : Array Node) {c : NodeId} (hc : c.index < nodes.size)
    (k : Nat) : (linkedBefore nodes k)[c.index]? = some (listersBefore nodes c k).getLast? := by
  induction k with
  | zero => simp [linkedBefore, listersBefore, hc]
  | succ k ih =>
    rw [linkedBefore_succ, listersBefore_succ,
      getElem?_linkChildren _ _ _ _ (by rwa [size_linkedBefore]), ih]
    by_cases hmem : c ∈ listedBy nodes k <;> simp [hmem]

/-- The parent of a node is the last one that lists it; the root has none. -/
theorem getElem?_linkParents (nodes : Array Node) (root : NodeId) {c : NodeId}
    (hc : c.index < nodes.size) : (linkParents nodes root)[c.index]? =
      some (if c = root then none else (listersBefore nodes c nodes.size).getLast?) := by
  show ((linkedBefore nodes nodes.size).setIfInBounds root.index none)[c.index]? = _
  by_cases hroot : c = root
  · subst hroot
    rw [if_pos rfl, Array.getElem?_setIfInBounds_self_of_lt (by rwa [size_linkedBefore])]
  · have hne : root.index ≠ c.index := by
      obtain ⟨c⟩ := c
      obtain ⟨root⟩ := root
      rintro rfl
      exact hroot rfl
    rw [if_neg hroot, Array.getElem?_setIfInBounds_ne hne, getElem?_linkedBefore nodes hc]

end Link

namespace Tree

variable {t : Tree} {c n p q : NodeId}

def Linked (t : Tree) : Prop :=
  t.parents = linkParents t.nodes t.root

/-- Finishing a draft links its nodes. -/
theorem linked_of_finish {d : Draft} {root : NodeId} (h : d.finish root = .ok t) : t.Linked := by
  unfold Draft.finish at h
  split at h
  · obtain rfl := Except.ok.inj h
    rfl
  · cases h

theorem linked_of_tree {b : Build NodeId} (h : b.tree = .ok t) : t.Linked := by
  unfold Build.tree at h
  cases hrun : b.run {} with
  | error e =>
    rw [hrun] at h
    cases h
  | ok result =>
    rw [hrun] at h
    exact linked_of_finish h

/-- In the whole tree, the listers of a node are the nodes with it among their children. -/
theorem mem_listersBefore_iff : p ∈ listersBefore t.nodes c t.nodes.size ↔ c ∈ t.childrenOf p := by
  have hlisted : listedBy t.nodes p.index = t.childrenOf p := by
    rw [listedBy, childrenOf, kind?, node?]
    cases t.nodes[p.index]? <;> rfl
  rw [listersBefore, List.mem_filter, hlisted, decide_eq_true_eq, and_iff_right_iff_imp]
  intro hc
  exact List.mem_map.2 ⟨p.index, List.mem_range.2 (index_lt_size_of_mem_childrenOf hc), rfl⟩

theorem parent?_eq (h : t.Linked) (hc : c.index < t.size) :
    t.parent? c = if c = t.root then none else (listersBefore t.nodes c t.nodes.size).getLast? := by
  rw [parent?, h, getElem?_linkParents _ _ hc]
  rfl

theorem index_lt_size_of_parent? (h : t.Linked) (hp : t.parent? c = some p) :
    c.index < t.size := by
  have hsize : t.parents.size = t.size := by
    rw [h]
    exact Array.size_setIfInBounds.trans (size_linkedBefore t.nodes t.nodes.size)
  rw [parent?, Option.join_eq_some_iff] at hp
  exact hsize ▸ (Array.getElem?_eq_some_iff.1 hp).1

/-- A parent lists its child. -/
theorem mem_childrenOf_of_parent? (h : t.Linked) (hp : t.parent? c = some p) :
    c ∈ t.childrenOf p := by
  rw [parent?_eq h (index_lt_size_of_parent? h hp)] at hp
  split at hp
  · cases hp
  · exact mem_listersBefore_iff.1 (List.mem_of_getLast? hp)

/-- With one place for each node, whoever lists a node is its parent. -/
theorem parent?_eq_some (h : t.Linked) (hplaces : t.UniquePlaces) (hroot : c ≠ t.root)
    (hp : c ∈ t.childrenOf p) : t.parent? c = some p := by
  have hc : c.index < t.size :=
    Nat.lt_trans (index_lt_of_mem_childrenOf hp) (index_lt_size_of_mem_childrenOf hp)
  rw [parent?_eq h hc, if_neg hroot]
  cases hlast : (listersBefore t.nodes c t.nodes.size).getLast? with
  | none =>
    rw [List.getLast?_eq_none_iff] at hlast
    have hmem := mem_listersBefore_iff.2 hp
    rw [hlast] at hmem
    cases hmem
  | some q =>
    have hq := mem_listersBefore_iff.1 (List.mem_of_getLast? hlast)
    rw [hplaces.parent_unique hp hq]

/-- More fuel than there are larger numbers finds no further ancestors. -/
theorem ancestorsWithin_fuel (h : t.Linked) {fuel fuel' : Nat} (hfuel : t.size ≤ n.index + fuel)
    (hfuel' : t.size ≤ n.index + fuel') : t.ancestorsWithin fuel n = t.ancestorsWithin fuel' n := by
  induction fuel generalizing n fuel' with
  | zero =>
    cases fuel' with
    | zero => rfl
    | succ fuel' =>
      rw [ancestorsWithin, ancestorsWithin]
      cases hp : t.parent? n with
      | none => rfl
      | some p =>
        have hlt := index_lt_size_of_parent? h hp
        omega
  | succ fuel ih =>
    rw [ancestorsWithin]
    cases hp : t.parent? n with
    | none =>
      cases fuel' with
      | zero => rfl
      | succ fuel' => rw [ancestorsWithin, hp]
    | some p =>
      have hlt := index_lt_of_mem_childrenOf (mem_childrenOf_of_parent? h hp)
      have hsize := index_lt_size_of_parent? h hp
      cases fuel' with
      | zero => omega
      | succ fuel' =>
        rw [ancestorsWithin, hp]
        exact congrArg (p :: ·) (ih (by omega) (by omega))

/-- The way up goes on from the parent. -/
theorem ancestors_eq (h : t.Linked) (n : NodeId) :
    t.ancestors n = (t.parent? n).elim [] fun p => p :: t.ancestors p := by
  have hfuel : t.ancestors n = t.ancestorsWithin (t.size + 1) n :=
    ancestorsWithin_fuel h (by omega) (by omega)
  rw [hfuel, ancestorsWithin]
  cases t.parent? n <;> rfl

theorem ancestors_of_parent?_eq_none (h : t.Linked) (hn : t.parent? n = none) :
    t.ancestors n = [] := by
  rw [ancestors_eq h, hn, Option.elim_none]

theorem ancestors_of_parent? (h : t.Linked) (hp : t.parent? n = some p) :
    t.ancestors n = p :: t.ancestors p := by
  rw [ancestors_eq h, hp, Option.elim_some]

/-- Induction along the way up from a node. -/
theorem ancestors_induction (h : t.Linked) {motive : NodeId → Prop}
    (top : ∀ n, t.parent? n = none → motive n)
    (step : ∀ n p, t.parent? n = some p → motive p → motive n) (n : NodeId) : motive n := by
  obtain ⟨k, hk⟩ : ∃ k, t.size ≤ n.index + k := ⟨t.size, Nat.le_add_left ..⟩
  induction k generalizing n with
  | zero =>
    cases hp : t.parent? n with
    | none => exact top n hp
    | some p =>
      have hlt := index_lt_size_of_parent? h hp
      omega
  | succ k ih =>
    cases hp : t.parent? n with
    | none => exact top n hp
    | some p =>
      have hlt := index_lt_of_mem_childrenOf (mem_childrenOf_of_parent? h hp)
      exact step n p hp (ih p (by omega))

/-- Ancestors have larger numbers. -/
theorem index_lt_of_mem_ancestors (h : t.Linked) (hp : p ∈ t.ancestors n) : n.index < p.index := by
  induction n using ancestors_induction h with
  | top n hn =>
    rw [ancestors_of_parent?_eq_none h hn] at hp
    cases hp
  | step n q hq ih =>
    have hlt := index_lt_of_mem_childrenOf (mem_childrenOf_of_parent? h hq)
    rw [ancestors_of_parent? h hq, List.mem_cons] at hp
    rcases hp with rfl | hp
    · exact hlt
    · exact Nat.lt_trans hlt (ih hp)

theorem isWithin_iff {top : NodeId} : t.isWithin top n ↔ n = top ∨ top ∈ t.ancestors n := by
  simp [isWithin]

theorem isWithin_self (n : NodeId) : t.isWithin n n :=
  isWithin_iff.2 (.inl rfl)

/-- No child of a node lies within another one. -/
theorem eq_of_isWithin (h : t.Linked) (hc : t.parent? c = some p) (hn : t.parent? n = some p)
    (hwithin : t.isWithin c n) : c = n := by
  rcases isWithin_iff.1 hwithin with rfl | hmem
  · rfl
  · have hlt := index_lt_of_mem_childrenOf (mem_childrenOf_of_parent? h hc)
    rw [ancestors_of_parent? h hn, List.mem_cons] at hmem
    rcases hmem with rfl | hmem
    · exact absurd hlt (Nat.lt_irrefl _)
    · have hgt := index_lt_of_mem_ancestors h hmem
      omega

end Tree

end LexicalScope
