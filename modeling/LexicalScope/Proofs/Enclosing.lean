import LexicalScope.Proofs.Entered

/-!
The scope around a node. The nearest ancestor at which a scope is anchored leads to it: the
innermost scope there holds everything below that ancestor, save the head of a `switch` or `with`
statement, which stands outside the scope of the statement.
-/
namespace LexicalScope

variable {ν : Type}

namespace Tree

/-- Whether `n` stands in the head of the statement `a`, outside of its scope. -/
def inHead (t : Tree) (a n : NodeId) : Bool :=
  ((t.kind? a).bind NodeKind.head?).any (t.isWithin · n)

variable {t : Tree} {a n p : NodeId}

/-- The head of a statement is the child that stands outside the scope of the statement. -/
theorem inHead_iff : t.inHead a n ↔
    ∃ kind c, t.kind? a = some kind ∧ kind.head? = some c ∧ t.isWithin c n := by
  unfold inHead
  cases t.kind? a with
  | none => simp
  | some kind => cases hhead : kind.head? <;> simp [hhead]

/-- A node stands in the head of a statement further up if its parent does. -/
theorem inHead_of_parent? (hlinked : t.Linked) (hplaces : t.UniquePlaces)
    (hp : t.parent? n = some p) (ha : a ∈ t.ancestors p) : t.inHead a n = t.inHead a p := by
  rw [Bool.eq_iff_iff, inHead_iff, inHead_iff]
  have hwithin {kind : NodeKind} {c : NodeId} (hkind : t.kind? a = some kind)
      (hhead : kind.head? = some c) : t.isWithin c n ↔ t.isWithin c p := by
    have hne : n ≠ c := by
      rintro rfl
      have hchild : n ∈ t.childrenOf a :=
        mem_childrenOf_iff.2 ⟨kind, hkind, NodeKind.mem_children_of_head? hhead⟩
      have hlt := index_lt_of_mem_ancestors hlinked ha
      rw [hplaces.parent_unique hchild (mem_childrenOf_of_parent? hlinked hp)] at hlt
      exact Nat.lt_irrefl _ hlt
    rw [isWithin_iff, isWithin_iff, ancestors_of_parent? hlinked hp, List.mem_cons,
      or_iff_right hne, eq_comm (a := c)]
  constructor
  · rintro ⟨kind, c, hkind, hhead, hn⟩
    exact ⟨kind, c, hkind, hhead, (hwithin hkind hhead).1 hn⟩
  · rintro ⟨kind, c, hkind, hhead, hn⟩
    exact ⟨kind, c, hkind, hhead, (hwithin hkind hhead).2 hn⟩

section Visits

variable {o : LanguageOptions} {u v : Visit}

/-- The walk comes to a child from its parent. -/
theorem parent?_of_visit (hlinked : t.Linked) (hplaces : t.UniquePlaces)
    (hu : u ∈ t.visits (t.rootVisit o)) (hn : n ∈ t.childrenOf u.node) :
    t.parent? n = some u.node := by
  refine parent?_eq_some hlinked hplaces (fun hroot => ?_) hn
  rw [hroot] at hn
  exact not_below_of_mem_childrenOf hn (below_of_mem_visits hu)

/-- A program opens a scope. -/
theorem openedAt_rootVisit_ne (hroot : t.rootKind.isProgram) (o : LanguageOptions) :
    t.openedAt (t.rootVisit o) ≠ [] := by
  have hkind : t.kind? t.root = some t.rootKind := kind?_eq_some_iff.2 ⟨t.root_lt, rfl⟩
  rw [openedAt_eq (v := t.rootVisit o) hkind]
  cases hprogram : t.rootKind with
  | program body sourceType => exact fun h => nomatch h
  | _ =>
    rw [hprogram] at hroot
    cases hroot

/-- A node that opens no scope has its children in the scope that it stands in. -/
theorem blocks_of_openedAt_eq_nil (hu : u ∈ t.visits (t.rootVisit o)) (hopened : t.openedAt u = [])
    (hv : v ∈ t.inner u) : v.blocks = u.blocks := by
  obtain ⟨kind, hkind, -⟩ := mem_childrenOf_iff.1 (node_mem_childrenOf hv)
  have hinside := inside_eq hkind hu
  have hfirst := List.append_eq_nil_iff.1 ((openedAt_eq hkind).symm.trans hopened)
  have houtside := outside_eq hkind
  rw [hopened] at hinside
  rw [hfirst.1] at houtside
  rcases List.mem_append.1 hv with hv | hv
  · obtain ⟨x, -, rfl⟩ := List.mem_map.1 hv
    exact houtside
  · obtain ⟨x, -, rfl⟩ := List.mem_map.1 hv
    exact hinside

/-- A child met early is the head of a statement with one scope, which holds no `var`. -/
theorem head_of_early (hu : u ∈ t.visits (t.rootVisit o)) {x : NodeId × Role}
    (hx : x ∈ (t.layout u.role u.node).early) :
    t.inHead u.node x.1 ∧ t.inside u = u.node :: t.outside u ∧
      ∃ k, (t.openedAt u).getLast? = some k ∧ k.holdsVars = false := by
  obtain ⟨kind, hkind⟩ := exists_kind?_of_mem_visits hu
  obtain ⟨c, hearly⟩ := early_layoutOfKind (t := t) u.node kind u.role
  rw [layout_of_kind? hkind, hearly] at hx
  split at hx
  · cases hx
  · next hown =>
    obtain ⟨m, hm, rfl⟩ := List.mem_map.1 hx
    have hhead : kind.head? = some m := Option.mem_toList.1 hm
    obtain ⟨k, hk, hvars⟩ := ownScopes_of_head hhead hown
    refine ⟨inHead_iff.2 ⟨kind, m, hkind, hhead, isWithin_self m⟩, ?_, k, ?_, hvars⟩
    · rw [inside_eq_outside hkind hu, hk]
      rfl
    · rw [openedAt_eq hkind, hk, List.getLast?_concat]

/-- No child met late is the head of a statement that opens a scope. -/
theorem not_inHead_of_late (hlinked : t.Linked) (hplaces : t.UniquePlaces)
    (hu : u ∈ t.visits (t.rootVisit o)) (hopened : t.openedAt u ≠ []) {x : NodeId × Role}
    (hx : x ∈ (t.layout u.role u.node).late) (hp : t.parent? x.1 = some u.node) :
    ¬t.inHead u.node x.1 := by
  intro hwithin
  obtain ⟨kind, m, hkind, hhead, hm⟩ := inHead_iff.1 hwithin
  have hmem : m ∈ t.childrenOf u.node :=
    mem_childrenOf_iff.2 ⟨kind, hkind, NodeKind.mem_children_of_head? hhead⟩
  obtain rfl : m = x.1 := eq_of_isWithin hlinked (parent?_of_visit hlinked hplaces hu hmem) hp hm
  rw [openedAt, hkind, Option.elim_some] at hopened
  obtain ⟨c, hearly⟩ := early_layoutOfKind (t := t) u.node kind u.role
  rw [← layout_of_kind? hkind, if_neg (ownScopes_ne_nil_of_head hhead hopened), hhead] at hearly
  have hnodup := hplaces.nodup_childrenOf u.node
  rw [← map_fst_slots t u.role, Layout.slots, hearly, List.map_append,
    Role.map_fst_visitAll] at hnodup
  exact (List.nodup_cons.1 hnodup).1 (List.mem_map_of_mem hx)

end Visits

end Tree

namespace ScopeGraph

/-- The nearest node above `n` at which a scope is anchored. -/
def anchor? (g : ScopeGraph ν) (t : Tree) (n : NodeId) : Option NodeId :=
  (t.ancestors n).find? fun a => !(g.scopesOf a).isEmpty

/-- The innermost scope anchored there; the global scope if there is none. -/
def enclosing (g : ScopeGraph ν) (t : Tree) (n : NodeId) : ScopeId :=
  ((g.anchor? t n).bind (g.acquire · true)).getD .global

def scopeAround? (g : ScopeGraph ν) (t : Tree) (n : NodeId) : Option ScopeId :=
  if (g.anchor? t n).any (t.inHead · n) then g.upper? (g.enclosing t n)
  else some (g.enclosing t n)

section Anchor

variable {g : ScopeGraph ν} {t : Tree} {n p : NodeId}

theorem anchor?_of_parent? (hlinked : t.Linked) (hp : t.parent? n = some p) :
    g.anchor? t n = if (g.scopesOf p).isEmpty then g.anchor? t p else some p := by
  rw [anchor?, Tree.ancestors_of_parent? hlinked hp, List.find?_cons, anchor?]
  cases (g.scopesOf p).isEmpty <;> rfl

/-- Nodes that open no scope change nothing for what stands below them. -/
theorem around_of_parent? (hlinked : t.Linked) (hplaces : t.UniquePlaces)
    (hp : t.parent? n = some p) (hempty : g.scopesOf p = []) :
    g.enclosing t n = g.enclosing t p ∧ g.scopeAround? t n = g.scopeAround? t p := by
  have hanchor : g.anchor? t n = g.anchor? t p := by
    rw [anchor?_of_parent? hlinked hp, hempty]
    rfl
  have henclosing : g.enclosing t n = g.enclosing t p := by rw [enclosing, hanchor, enclosing]
  refine ⟨henclosing, ?_⟩
  have hhead : (g.anchor? t n).any (t.inHead · n) = (g.anchor? t p).any (t.inHead · p) := by
    rw [hanchor]
    cases ha : g.anchor? t p with
    | none => rfl
    | some a => exact Tree.inHead_of_parent? hlinked hplaces hp (List.mem_of_find?_eq_some ha)
  rw [scopeAround?, scopeAround?, hhead, henclosing]

end Anchor

section Regions

variable {g : ScopeGraph ν} {s : ScopeId} {r : Region}

theorem region?_eq_some_iff :
    g.region? s = some r ↔ g.kindOf? s = some r.kind ∧ g.blocksOf s = r.blocks := by
  obtain ⟨kind, blocks⟩ := r
  simp [region?]

theorem exists_region? (hs : s.index < g.scopes.size) :
    ∃ kind, g.region? s = some ⟨kind, g.blocksOf s⟩ := by
  obtain ⟨scope, hscope⟩ := getScope?_of_lt hs
  exact ⟨scope.kind, by rw [region?, kindOf?, hscope]; rfl⟩

theorem holdsVars_of_kindOf? {kind : ScopeKind} (h : g.kindOf? s = some kind) :
    g.holdsVars s = kind.holdsVars := by
  obtain ⟨scope, hscope, rfl⟩ := Option.map_eq_some_iff.1 h
  rw [holdsVars, hscope, Option.any_some]

theorem lt_of_region? (h : g.region? s = some r) : s.index < g.scopes.size := by
  rw [← isSome_getScope?_iff]
  cases hs : g.getScope? s with
  | none => simp [region?, kindOf?, hs] at h
  | some scope => rfl

/-- The blocks around a scope are its own and those of the scope around it. -/
theorem Rooted.blocksOf_eq (hg : g.Rooted) (hs : s.index < g.scopes.size) :
    ∃ block, g.blockOf s = some block ∧
      g.blocksOf s = block :: (g.upper? s).elim [] g.blocksOf := by
  obtain ⟨scope, hscope⟩ := getScope?_of_lt hs
  have hblock : g.blockOf s = some scope.block := by rw [blockOf, hscope]; rfl
  refine ⟨scope.block, hblock, ?_⟩
  rw [blocksOf, hg.chain_eq hs, List.filterMap_cons_some hblock]
  cases g.upper? s <;> rfl

theorem Rooted.head?_blocksOf (hg : g.Rooted) (hs : s.index < g.scopes.size) :
    (g.blocksOf s).head? = g.blockOf s := by
  obtain ⟨block, hblock, hblocks⟩ := hg.blocksOf_eq hs
  rw [hblocks, hblock, List.head?_cons]

/-- What is left of the blocks around a scope after some of them are those around another one. -/
theorem Rooted.exists_mem_chain_of_suffix (hg : g.Rooted) (hs : s.index < g.scopes.size)
    {blocks : List NodeId} (hsuffix : blocks <:+ g.blocksOf s) (hne : blocks ≠ []) :
    ∃ x ∈ g.chain s, g.blocksOf x = blocks := by
  induction s, hs using hg.chain_induction with
  | outermost s hs hu =>
    obtain ⟨block, -, hblocks⟩ := hg.blocksOf_eq hs
    rw [hu, Option.elim_none] at hblocks
    rw [hblocks, List.suffix_cons_iff, List.suffix_nil] at hsuffix
    exact ⟨s, hg.mem_chain_self hs, hblocks.trans (hsuffix.resolve_right hne).symm⟩
  | inner s u hs hu ih =>
    obtain ⟨block, -, hblocks⟩ := hg.blocksOf_eq hs
    rw [hu, Option.elim_some] at hblocks
    rw [hblocks, List.suffix_cons_iff] at hsuffix
    rcases hsuffix with rfl | hsuffix
    · exact ⟨s, hg.mem_chain_self hs, hblocks⟩
    · obtain ⟨x, hx, hblocks⟩ := ih hsuffix
      rw [hg.chain_inner hs hu]
      exact ⟨x, List.mem_cons_of_mem _ hx, hblocks⟩

end Regions

/-- The last of an ascending list is the one that no other exceeds. -/
theorem getLast?_of_ascending {l : List ScopeId} (hl : l.Pairwise (·.index < ·.index))
    {e : ScopeId} (he : e ∈ l) (hle : ∀ s ∈ l, s.index ≤ e.index) : l.getLast? = some e := by
  obtain ⟨before, after, rfl⟩ := List.append_of_mem he
  cases after with
  | nil => simp
  | cons s after =>
    have hlt := (List.pairwise_cons.1 (List.pairwise_append.1 hl).2.1).1 s (List.mem_cons_self ..)
    have hle := hle s (by simp)
    omega

namespace Charted

variable [DecidableEq ν] {g : ScopeGraph ν} {t : Tree} {o : LanguageOptions}
  (hg : g.Charted t o) {s : ScopeId} {r : Region} {v u : Visit}
include hg

/-- A scope is anchored at the innermost of its blocks. -/
theorem mem_scopesOf_iff {n : NodeId} :
    s ∈ g.scopesOf n ↔ ∃ r, g.region? s = some r ∧ r.blocks.head? = some n := by
  rw [hg.nested.scopesOf_eq, List.mem_filter, mem_scopeIds_iff, decide_eq_true_eq]
  constructor
  · rintro ⟨hs, hblock⟩
    obtain ⟨kind, hr⟩ := exists_region? hs
    exact ⟨_, hr, (hg.head?_blocksOf hs).trans hblock⟩
  · rintro ⟨r, hr, hhead⟩
    have hs := lt_of_region? hr
    rw [← (region?_eq_some_iff.1 hr).2, hg.head?_blocksOf hs] at hhead
    exact ⟨hs, hhead⟩

/-- The scopes anchored at a visited node are those that it opens. -/
theorem mem_scopesOf_visit (hplaces : t.UniquePlaces) (hv : v ∈ t.visits (t.rootVisit o)) :
    s ∈ g.scopesOf v.node ↔ ∃ r ∈ t.regionsAt v, g.region? s = some r := by
  rw [hg.mem_scopesOf_iff]
  constructor
  · rintro ⟨r, hr, hhead⟩
    obtain ⟨w, hw, hmem⟩ := hg.exists_visit hr
    have hnode := head?_blocks_of_mem (Tree.regionsAt_eq hw ▸ hmem)
    rw [hhead, Option.some.injEq] at hnode
    rw [Tree.eq_of_mem_visits hplaces hv hw hnode]
    exact ⟨r, hmem, hr⟩
  · rintro ⟨r, hmem, hr⟩
    exact ⟨r, hr, head?_blocks_of_mem (Tree.regionsAt_eq hv ▸ hmem)⟩

/-- No scope is anchored at a node that opens none. -/
theorem scopesOf_eq_nil (hplaces : t.UniquePlaces) (hv : v ∈ t.visits (t.rootVisit o))
    (hopened : t.openedAt v = []) : g.scopesOf v.node = [] := by
  rw [List.eq_nil_iff_forall_not_mem]
  intro s hs
  obtain ⟨r, hr, -⟩ := (hg.mem_scopesOf_visit hplaces hv).1 hs
  rw [Tree.regionsAt_eq hv, hopened] at hr
  cases hr

/-- The innermost scope anchored at a visited node. -/
theorem acquire_eq (hplaces : t.UniquePlaces) (hv : v ∈ t.visits (t.rootVisit o))
    {kind : ScopeKind} (hkind : (t.openedAt v).getLast? = some kind) :
    ∃ e ∈ g.scopesOf v.node, g.acquire v.node true = some e ∧
      g.region? e = some ⟨kind, t.inside v⟩ := by
  have hinside : t.inside v = List.replicate (t.openedAt v).length v.node ++ v.blocks := by
    obtain ⟨nodeKind, hnode⟩ := Tree.exists_kind?_of_mem_visits hv
    exact Tree.inside_eq hnode hv
  have hmem := Tree.innermost_mem_regionsAt hv hkind
  obtain ⟨e, he⟩ := hg.exists_scope hv hmem
  obtain ⟨hkindOf, hblocks⟩ := region?_eq_some_iff.1 he
  have hsize := lt_of_region? he
  have hanchored : e ∈ g.scopesOf v.node := (hg.mem_scopesOf_visit hplaces hv).2 ⟨_, hmem, he⟩
  have hlast : (g.scopesOf v.node).getLast? = some e := by
    refine getLast?_of_ascending ?_ hanchored ?_
    · rw [hg.nested.scopesOf_eq]
      exact g.pairwise_scopeIds.filter _
    · intro s hs
      obtain ⟨r, hr, hsr⟩ := (hg.mem_scopesOf_visit hplaces hv).1 hs
      have hsuffix := suffix_of_mem_regionsFrom (Tree.regionsAt_eq hv ▸ hr)
      rw [← hinside, ← show g.blocksOf e = t.inside v from hblocks] at hsuffix
      have hne : r.blocks ≠ [] := by
        intro hnil
        have hhead := head?_blocks_of_mem (Tree.regionsAt_eq hv ▸ hr)
        rw [hnil] at hhead
        cases hhead
      obtain ⟨x, hx, heq⟩ := hg.exists_mem_chain_of_suffix hsize hsuffix hne
      obtain ⟨kind', hx'⟩ := exists_region? (hg.size_of_mem_chain hsize hx)
      rw [hg.unique hsr hx' heq.symm]
      exact hg.index_le_of_mem_chain hsize hx
  obtain ⟨scope, hscope⟩ := getScope?_of_lt hsize
  have hname : scope.kind ≠ .functionName := by
    rw [kindOf?, hscope, Option.map_some] at hkindOf
    exact fun heq => Tree.getLast?_openedAt_ne t v (by rw [hkind, ← hkindOf, heq])
  refine ⟨e, hanchored, ?_, he⟩
  simp [acquire, hlast, hscope, hname]

/-- A scope that holds no `var` declarations lies inside another one, with which it shares its
variable scope. -/
theorem exists_upper? (hs : s.index < g.scopes.size) (hvars : g.holdsVars s = false) :
    ∃ u, g.upper? s = some u ∧ u.index < g.scopes.size ∧
      g.variableScope s = g.variableScope u := by
  cases hu : g.upper? s with
  | none =>
    obtain ⟨scope, hscope⟩ := getScope?_of_lt hs
    have hkind := (hg.kind_global hscope).2 (hg.isGlobal hs hu)
    rw [holdsVars, hscope, Option.any_some, hkind] at hvars
    cases hvars
  | some u =>
    have hu' := hg.upper_size hs hu
    have hscope := hg.nested.variableScope_eq hs
    rw [hg.chain_inner hs hu, List.find?_cons, hvars, hg.nested.variableScope_eq hu'] at hscope
    exact ⟨u, rfl, hu', (Option.some.inj hscope).symm⟩

/-- What stands below a node that opens scopes stands in the innermost of them, or in the head of
the statement outside of it. -/
theorem scopeAround?_of_opened (hlinked : t.Linked) (hplaces : t.UniquePlaces)
    (hu : u ∈ t.visits (t.rootVisit o)) {kind : ScopeKind}
    (hkind : (t.openedAt u).getLast? = some kind) (hv : v ∈ t.inner u)
    (hp : t.parent? v.node = some u.node) :
    ∃ s, g.scopeAround? t v.node = some s ∧ g.blocksOf s = v.blocks ∧
      s.index < g.scopes.size ∧ g.variableScope (g.enclosing t v.node) = g.variableScope s := by
  obtain ⟨e, hanchored, hacquire, he⟩ := hg.acquire_eq hplaces hu hkind
  obtain ⟨hkindOf, hblocks⟩ := region?_eq_some_iff.1 he
  have hsize := lt_of_region? he
  have hanchor : g.anchor? t v.node = some u.node := by
    rw [anchor?_of_parent? hlinked hp, if_neg]
    rw [List.isEmpty_iff]
    exact List.ne_nil_of_mem hanchored
  have henclosing : g.enclosing t v.node = e := by
    rw [enclosing, hanchor, Option.bind_some, hacquire, Option.getD_some]
  rw [scopeAround?, hanchor, Option.any_some, henclosing]
  rcases List.mem_append.1 hv with hv | hv
  · obtain ⟨x, hx, rfl⟩ := List.mem_map.1 hv
    obtain ⟨hhead, hinside, k, hk, hvars⟩ := Tree.head_of_early hu hx
    obtain rfl := Option.some.inj (hkind.symm.trans hk)
    obtain ⟨s, hupper, hs, hvariable⟩ :=
      hg.exists_upper? hsize ((holdsVars_of_kindOf? hkindOf).trans hvars)
    have houtside : g.blocksOf s = t.outside u := by
      obtain ⟨block, -, hcons⟩ := hg.blocksOf_eq hsize
      rw [hblocks, hupper, hinside] at hcons
      exact (List.cons.inj hcons).2.symm
    rw [if_pos hhead]
    exact ⟨s, hupper, houtside, hs, hvariable⟩
  · obtain ⟨x, hx, rfl⟩ := List.mem_map.1 hv
    have hopened : t.openedAt u ≠ [] := by
      rintro hnil
      rw [hnil] at hkind
      cases hkind
    rw [if_neg (Tree.not_inHead_of_late hlinked hplaces hu hopened hx hp)]
    exact ⟨e, rfl, hblocks, hsize, rfl⟩

/-- The scope around a visited node is the one with the same blocks around it. -/
theorem scopeAround?_eq (hlinked : t.Linked) (hplaces : t.UniquePlaces)
    (hroot : t.rootKind.isProgram) :
    ∀ v ∈ t.visits (t.rootVisit o), v ≠ t.rootVisit o →
      ∃ s, g.scopeAround? t v.node = some s ∧ g.blocksOf s = v.blocks ∧
        s.index < g.scopes.size ∧
        g.variableScope (g.enclosing t v.node) = g.variableScope s := by
  refine Tree.visits_down (fun hne => absurd rfl hne) fun u hu ih v hv _ => ?_
  have hp := Tree.parent?_of_visit hlinked hplaces hu (Tree.node_mem_childrenOf hv)
  cases hkind : (t.openedAt u).getLast? with
  | some kind => exact hg.scopeAround?_of_opened hlinked hplaces hu hkind hv hp
  | none =>
    have hopened := List.getLast?_eq_none_iff.1 hkind
    have hne : u ≠ t.rootVisit o := by
      rintro rfl
      exact Tree.openedAt_rootVisit_ne hroot o hopened
    obtain ⟨henclosing, haround⟩ :=
      around_of_parent? hlinked hplaces hp (hg.scopesOf_eq_nil hplaces hu hopened)
    rw [haround, henclosing, Tree.blocks_of_openedAt_eq_nil hu hopened hv]
    exact ih hne

end Charted

end ScopeGraph

end LexicalScope
