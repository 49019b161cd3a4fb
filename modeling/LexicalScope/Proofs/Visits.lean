import LexicalScope.Proofs.Roles
import Mathlib.Logic.Relation

/-!
Visited nodes. A walk comes to every node below the one where it starts, and in a tree with one
place for each node it comes to each of them once.
-/
namespace LexicalScope.Tree

variable {t : Tree} {c n p q top : NodeId}

def IsChild (t : Tree) (c p : NodeId) : Prop :=
  c ∈ t.childrenOf p

/-- Whether `n` is `top` or stands below it. -/
def Below (t : Tree) (n top : NodeId) : Prop :=
  Relation.ReflTransGen t.IsChild n top

theorem index_le_of_below (h : t.Below n top) : n.index ≤ top.index := by
  induction h with
  | refl => exact Nat.le_refl _
  | tail _ hchild ih => exact Nat.le_trans ih (Nat.le_of_lt (index_lt_of_mem_childrenOf hchild))

theorem not_below_of_mem_childrenOf (hc : c ∈ t.childrenOf n) : ¬t.Below n c := by
  intro h
  have hle := index_le_of_below h
  have hlt := index_lt_of_mem_childrenOf hc
  omega

/-- Nothing stands below two children of a node. -/
theorem eq_of_below (hplaces : t.UniquePlaces) {c' : NodeId} (hc : c ∈ t.childrenOf p)
    (hc' : c' ∈ t.childrenOf p) (hn : t.Below n c) (hn' : t.Below n c') : c = c' := by
  have hunique : Relator.RightUnique t.IsChild := fun _ _ _ h h' => hplaces.parent_unique h h'
  have happart {c c' : NodeId} (hc : c ∈ t.childrenOf p) (hc' : c' ∈ t.childrenOf p)
      (h : t.Below c c') : c = c' := by
    rcases h.cases_head with rfl | ⟨q, hq, hbelow⟩
    · rfl
    · rw [hplaces.parent_unique hq hc] at hbelow
      exact absurd hbelow (not_below_of_mem_childrenOf hc')
  rcases Relation.ReflTransGen.total_of_right_unique hunique hn hn' with h | h
  · exact happart hc hc' h
  · exact (happart hc' hc h).symm

theorem IsChild.below (h : t.IsChild c p) : t.Below c p :=
  .single h

section Visits

variable {v w : Visit}

theorem below_of_mem_visits (hw : w ∈ t.visits v) : t.Below w.node v.node :=
  visits_down (motive := fun w => t.Below w.node v.node) .refl
    (fun _ _ hu _ hw => .head (node_mem_childrenOf hw) hu) w hw

theorem exists_mem_inner (hc : c ∈ t.childrenOf v.node) : ∃ w ∈ t.inner v, w.node = c := by
  rw [← map_node_inner, List.mem_map] at hc
  exact hc

theorem slot_of_mem_inner (hw : w ∈ t.inner v) :
    (w.node, w.role) ∈ (t.layout v.role v.node).slots := by
  rw [Layout.slots]
  rcases List.mem_append.1 hw with hw | hw
  · obtain ⟨x, hx, rfl⟩ := List.mem_map.1 hw
    exact List.mem_append_left _ hx
  · obtain ⟨x, hx, rfl⟩ := List.mem_map.1 hw
    exact List.mem_append_right _ hx

theorem exists_mem_inner_of_slot {r : Role} (hc : (c, r) ∈ (t.layout v.role v.node).slots) :
    ∃ w ∈ t.inner v, w.node = c ∧ w.role = r := by
  rcases List.mem_append.1 hc with hc | hc
  · exact ⟨_, List.mem_append_left _ (List.mem_map_of_mem hc), rfl, rfl⟩
  · exact ⟨_, List.mem_append_right _ (List.mem_map_of_mem hc), rfl, rfl⟩

/-- A walk comes to every node below its start. -/
theorem exists_mem_visits (h : t.Below n v.node) : ∃ w ∈ t.visits v, w.node = n := by
  induction h using Relation.ReflTransGen.head_induction_on with
  | refl => exact ⟨v, t.mem_visits_self v, rfl⟩
  | head hchild _ ih =>
    obtain ⟨u, hu, rfl⟩ := ih
    obtain ⟨w, hw, rfl⟩ := exists_mem_inner hchild
    exact ⟨w, inner_subset_visits hu hw, rfl⟩

/-- With one place for each node, a walk comes to no node twice. -/
theorem nodup_visits (hplaces : t.UniquePlaces) (v : Visit) :
    ((t.visits v).map (·.node)).Nodup := by
  induction v using visits_induction (t := t) with
  | h v ih =>
    rw [visits_eq, List.map_cons, List.nodup_cons, List.map_flatMap]
    refine ⟨?_, List.nodup_flatMap.2 ⟨ih, ?_⟩⟩
    · intro hmem
      obtain ⟨u, hu, hnode⟩ := List.mem_flatMap.1 hmem
      obtain ⟨w, hw, hnode⟩ := List.mem_map.1 hnode
      have hbelow := below_of_mem_visits hw
      rw [hnode] at hbelow
      exact not_below_of_mem_childrenOf (node_mem_childrenOf hu) hbelow
    · have hnodup : ((t.inner v).map (·.node)).Nodup := by
        rw [map_node_inner]
        exact hplaces.nodup_childrenOf v.node
      refine (List.pairwise_map.1 hnodup).imp_of_mem fun {u u'} hu hu' hne => ?_
      refine List.disjoint_left.2 fun n hn hn' => ?_
      obtain ⟨w, hw, rfl⟩ := List.mem_map.1 hn
      obtain ⟨w', hw', hnode⟩ := List.mem_map.1 hn'
      refine hne (eq_of_below hplaces (node_mem_childrenOf hu) (node_mem_childrenOf hu')
        (below_of_mem_visits hw) ?_)
      rw [← hnode]
      exact below_of_mem_visits hw'

theorem eq_of_mem_visits (hplaces : t.UniquePlaces) {u : Visit} (hv : v ∈ t.visits u)
    (hw : w ∈ t.visits u) (h : v.node = w.node) : v = w :=
  List.inj_on_of_nodup_map (nodup_visits hplaces u) hv hw h

end Visits

end LexicalScope.Tree
