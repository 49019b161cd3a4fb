import LexicalScope.Proofs.Composition
import LexicalScope.Proofs.Entered
import LexicalScope.Proofs.NameIndependence
import Mathlib.Data.List.Chain

/-!
The scopes of function names. The name of a function expression has a scope of its own, and the
scope of the function opens in it at once, at the same node. So between the parts of a walk such a
scope holds its one name and its one scope, and it is never the innermost of the open ones: it
closes with the function. Asking for the scope at a node never ends in it.
-/
namespace LexicalScope

variable {ν : Type}

namespace ScopeGraph

/-- The scope of a function's own name holds that name, if it is an identifier, and inside of it
lies the scope of the function. -/
structure NamesFunction (g : ScopeGraph ν) (t : Tree) (handle : String → ν) (scope : Scope ν) :
    Prop where
  exists_function : ∃ f, scope.children = #[f] ∧ g.kindOf? f = some .function ∧
    g.blockOf f = some scope.block
  exists_id : ∃ function id, t.kind? scope.block = some (.functionExpression function) ∧
    function.id = some id ∧ scope.table.keys = (t.identifierName? id).toList.map handle

/-- If `s` is the scope of a name, there is nothing to come in it. -/
def Complete (g : ScopeGraph ν) (t : Tree) (handle : String → ν) (s : ScopeId) : Prop :=
  ∀ scope, g.getScope? s = some scope → scope.kind = .functionName → g.NamesFunction t handle scope

/-- The scopes of names are complete, but one at most, and no `var` goes to any of them. -/
structure NamesComplete (g : ScopeGraph ν) (t : Tree) (handle : String → ν)
    (busy : Option ScopeId) : Prop where
  complete : ∀ s, some s ≠ busy → g.Complete t handle s
  kindOf?_global : g.kindOf? .global = some .global
  blockOf_global : g.blockOf .global = some t.root
  variableScope : ∀ s : ScopeId, s.index < g.scopes.size →
    (g.variableScope s).index < g.scopes.size ∧
      g.kindOf? (g.variableScope s) ≠ some .functionName

/-- The global scope is open, and around the scope of each open function is that of its name. -/
structure Stacked (g : ScopeGraph ν) (opened : List ScopeId) : Prop where
  exists_inner : ∃ inner, opened = inner ++ [.global]
  lt_size : ∀ s ∈ opened, s.index < g.scopes.size
  isChain : opened.IsChain fun inner s =>
    g.kindOf? s = some .functionName → g.blockOf inner = g.blockOf s

/-- The same scopes with the same names, up to those of the global scope. -/
structure SameNames (g g' : ScopeGraph ν) : Prop extends g.SameTree g' where
  tableOf_eq : ∀ s, s ≠ .global → g'.tableOf s = g.tableOf s

section Tables

variable {t : Tree} {handle : String → ν} {busy : Option ScopeId} {g g' : ScopeGraph ν}
  {s : ScopeId} {opened : List ScopeId}

/-- A scope stays complete if its place and its table stay. -/
theorem Complete.congr (h : g.Complete t handle s) (hsame : g.SameTree g')
    (htable : g.kindOf? s = some .functionName → g'.tableOf s = g.tableOf s) :
    g'.Complete t handle s := by
  intro scope' hscope' hkind
  obtain ⟨scope, hscope, hnode⟩ := hsame.exists_getScope? hscope'
  simp only [Scope.treeNode, Scope.position, Prod.mk.injEq] at hnode
  obtain ⟨-, -, hchildren, hkind', -, -, hblock⟩ := hnode
  have hname : scope.kind = .functionName := hkind'.trans hkind
  obtain ⟨⟨f, hf, hfunction, hblockOf⟩, function, id, hfunctionKind, hid, hkeys⟩ :=
    h scope hscope hname
  have htables := htable (by rw [kindOf?, hscope, Option.map_some, hname])
  rw [tableOf, tableOf, hscope, hscope', Option.map_some, Option.map_some, Option.some.injEq]
    at htables
  refine ⟨⟨f, hchildren ▸ hf, (hsame.samePositions.kindOf? f).trans hfunction, ?_⟩, function, id,
    hblock ▸ hfunctionKind, hid, htables ▸ hkeys⟩
  rw [hsame.samePositions.blockOf, hblockOf, hblock]

theorem NamesComplete.congr (h : g.NamesComplete t handle busy) (hsame : g.SameTree g')
    (htable : ∀ s, some s ≠ busy → g.kindOf? s = some .functionName →
      g'.tableOf s = g.tableOf s) : g'.NamesComplete t handle busy where
  complete s hs := (h.complete s hs).congr hsame (htable s hs)
  kindOf?_global := (hsame.samePositions.kindOf? _).trans h.kindOf?_global
  blockOf_global := (hsame.samePositions.blockOf _).trans h.blockOf_global
  variableScope s hs := by
    have hvariable := h.variableScope s ((hsame.samePositions.lt_size_iff s).1 hs)
    rw [hsame.samePositions.variableScope, hsame.samePositions.lt_size_iff,
      hsame.samePositions.kindOf?]
    exact hvariable

theorem Stacked.congr (h : g.Stacked opened) (hsame : g.SamePositions g') : g'.Stacked opened where
  exists_inner := h.exists_inner
  lt_size s hs := (hsame.lt_size_iff s).2 (h.lt_size s hs)
  isChain := by
    simp only [hsame.kindOf?, hsame.blockOf]
    exact h.isChain

end Tables

section Open

variable {t : Tree} {handle : String → ν} {busy : Option ScopeId} {g : ScopeGraph ν}
  {s u : ScopeId} {opened : List ScopeId} (kind : ScopeKind) (block : NodeId) (strict : Bool)

/-- Opening a scope elsewhere completes nothing and spoils nothing. -/
theorem Complete.openScope (h : g.Complete t handle s) (hs : s ≠ g.nextScope)
    (hu : u = s → g.kindOf? s ≠ some .functionName) :
    (g.openScope kind block strict (some u)).Complete t handle s := by
  intro scope hscope hkind
  rw [getScope?_openScope, if_neg hs] at hscope
  by_cases hus : u = s
  · have hkindOf := kindOf?_openScope kind block strict (some u) hs
    rw [kindOf?, getScope?_openScope, if_neg hs, hscope, Option.map_some, hkind] at hkindOf
    exact absurd hkindOf.symm (hu hus)
  · rw [if_neg fun heq => hus (Option.some.inj heq)] at hscope
    obtain ⟨⟨f, hchildren, hfunction, hblock⟩, hid⟩ := h scope hscope hkind
    have hf : f ≠ g.nextScope := by
      obtain ⟨function, hget, -⟩ := Option.map_eq_some_iff.1 hfunction
      exact ne_nextScope_of_lt (lt_of_getScope? hget)
    refine ⟨⟨f, hchildren, ?_, ?_⟩, hid⟩
    · rw [kindOf?_openScope _ _ _ _ hf, hfunction]
    · rw [Nested.blockOf_openScope _ hf, hblock]

/-- A scope opens inside `u`. If `u` is that of a name, this completes it. -/
theorem NamesComplete.openScope (h : g.NamesComplete t handle busy)
    (hu : u.index < g.scopes.size) (hname : g.kindOf? u = some .functionName → busy = some u)
    (hbusy : ∀ s ∈ busy, (g.openScope kind block strict (some u)).Complete t handle s) :
    (g.openScope kind block strict (some u)).NamesComplete t handle
      (if kind = .functionName then some g.nextScope else none) where
  complete s hs := by
    by_cases hnext : s = g.nextScope
    · intro scope hscope hkind
      rw [getScope?_openScope, if_pos hnext, Option.some.injEq] at hscope
      have hkind : kind = .functionName := by rw [← hkind, ← hscope, opening]
      rw [if_pos hkind, hnext] at hs
      exact absurd rfl hs
    · by_cases hsbusy : busy = some s
      · exact hbusy s hsbusy
      · refine (h.complete s (Ne.symm hsbusy)).openScope kind block strict hnext ?_
        rintro rfl hkind
        exact hsbusy (hname hkind)
  kindOf?_global := by
    have hne : ScopeId.global ≠ g.nextScope := ne_nextScope_of_lt (Nat.zero_lt_of_lt hu)
    rw [kindOf?_openScope _ _ _ _ hne, h.kindOf?_global]
  blockOf_global := by
    have hne : ScopeId.global ≠ g.nextScope := ne_nextScope_of_lt (Nat.zero_lt_of_lt hu)
    rw [Nested.blockOf_openScope _ hne, h.blockOf_global]
  variableScope s hs := by
    have hold {x : ScopeId} (hx : x.index < g.scopes.size) :
        (g.variableScope x).index < (g.openScope kind block strict (some u)).scopes.size ∧
          (g.openScope kind block strict (some u)).kindOf? (g.variableScope x) ≠
            some .functionName := by
      obtain ⟨hlt, hkind⟩ := h.variableScope x hx
      rw [kindOf?_openScope _ _ _ _ (ne_nextScope_of_lt hlt), size_scopes_openScope]
      exact ⟨Nat.lt_succ_of_lt hlt, hkind⟩
    rw [variableScope_openScope]
    rcases lt_or_eq_nextScope (size_scopes_openScope ..) hs with hs | rfl
    · rw [if_neg (ne_nextScope_of_lt hs)]
      exact hold hs
    · rw [if_pos rfl]
      split
      · next hvars =>
        rw [kindOf?_nextScope, size_scopes_openScope]
        refine ⟨Nat.lt_succ_self _, fun hkind => ?_⟩
        rw [Option.some.inj hkind] at hvars
        cases hvars
      · exact hold hu

/-- The scope of a name has only the scope of its function right inside. -/
theorem Stacked.openScope (h : g.Stacked opened) (hu : opened.head? = some u)
    (hblock : g.kindOf? u = some .functionName → g.blockOf u = some block) :
    (g.openScope kind block strict (some u)).Stacked (g.nextScope :: opened) where
  exists_inner := by
    obtain ⟨inner, hinner⟩ := h.exists_inner
    exact ⟨g.nextScope :: inner, congrArg _ hinner⟩
  lt_size := by
    rw [size_scopes_openScope]
    refine List.forall_mem_cons.2 ⟨Nat.lt_succ_self _, fun s hs => ?_⟩
    exact Nat.lt_succ_of_lt (h.lt_size s hs)
  isChain := by
    have hne (s : ScopeId) (hs : s ∈ opened) : s ≠ g.nextScope :=
      ne_nextScope_of_lt (h.lt_size s hs)
    have hold : opened.IsChain fun inner s =>
        (g.openScope kind block strict (some u)).kindOf? s = some .functionName →
          (g.openScope kind block strict (some u)).blockOf inner =
            (g.openScope kind block strict (some u)).blockOf s := by
      refine h.isChain.imp_of_mem_imp fun inner s hinner hs hblocks => ?_
      rw [kindOf?_openScope _ _ _ _ (hne s hs), Nested.blockOf_openScope _ (hne inner hinner),
        Nested.blockOf_openScope _ (hne s hs)]
      exact hblocks
    refine hold.cons fun s hs => ?_
    rw [hu, Option.mem_some_iff] at hs
    subst hs
    have hne := hne u (List.mem_of_mem_head? hu)
    rw [kindOf?_openScope _ _ _ _ hne, Nested.blockOf_nextScope, Nested.blockOf_openScope _ hne]
    exact fun hkind => (hblock hkind).symm

end Open

namespace SameNames

variable {g g' g'' : ScopeGraph ν}

theorem trans (h : g.SameNames g') (h' : g'.SameNames g'') : g.SameNames g'' where
  toSameTree := h.toSameTree.trans h'.toSameTree
  tableOf_eq s hs := (h'.tableOf_eq s hs).trans (h.tableOf_eq s hs)

theorem refl (g : ScopeGraph ν) : g.SameNames g :=
  ⟨.refl g, fun _ _ => rfl⟩

theorem modifyScope {f : Scope ν → Scope ν} (hf : ∀ s, (f s).treeNode = s.treeNode)
    (htable : ∀ s, (f s).table = s.table) (s : ScopeId) : g.SameNames (g.modifyScope s f) where
  toSameTree := .modifyScope hf s
  tableOf_eq x _ := by
    rw [tableOf, getScope?_modifyScope, tableOf]
    split
    · cases g.getScope? x <;> simp [htable]
    · rfl

variable [DecidableEq ν]

/-- The closing of scopes and the settings leave all tables but the global one. -/
theorem stable (g₀ : ScopeGraph ν) : Stable g₀.SameNames where
  modifyScope hf htable _ h := h.trans (.modifyScope hf htable _)
  modifyReference hf h := ⟨(SameTree.stable g₀).modifyReference hf h.toSameTree, h.tableOf_eq⟩
  modifyVariable hf h := ⟨(SameTree.stable g₀).modifyVariable hf h.toSameTree, h.tableOf_eq⟩
  bindGlobal h := by
    refine h.trans ⟨.bind _ _ _, fun s hs => ?_⟩
    rw [tableOf, getScope?_bind, if_neg fun heq => hs heq.1, tableOf]
  declareImplicit _ _ _ _ h := by
    refine h.trans ⟨.declareImplicit _ _ _, fun s _ => ?_⟩
    rw [tableOf, getScope?_declareImplicit, tableOf]
  setImplicit hsub hkept h :=
    ⟨(SameTree.stable g₀).setImplicit hsub hkept h.toSameTree, h.tableOf_eq⟩

theorem closeScope (t : Tree) (g : ScopeGraph ν) (s : ScopeId) : g.SameNames (g.closeScope t s) :=
  (stable g).closeScope t s (refl g)

end SameNames

theorem NamesComplete.sameNames {t : Tree} {handle : String → ν} {busy : Option ScopeId}
    {g g' : ScopeGraph ν} (h : g.NamesComplete t handle busy) (hsame : g.SameNames g') :
    g'.NamesComplete t handle busy := by
  refine h.congr hsame.toSameTree fun s _ hkind => hsame.tableOf_eq s ?_
  rintro rfl
  rw [h.kindOf?_global] at hkind
  cases hkind

end ScopeGraph

namespace Cursor

/-- The scopes of names are complete, but for the innermost open one while its function is yet to
open. -/
structure Named (t : Tree) (handle : String → ν) (busy : Option ScopeId) (c : Cursor ν) : Prop
    extends c.graph.NamesComplete t handle busy, c.graph.Stacked c.opened where
  current : c.graph.kindOf? c.current = some .functionName → busy = some c.current

namespace Named

variable {t : Tree} {handle : String → ν} {busy : Option ScopeId} {c : Cursor ν}

theorem head?_opened (h : c.Named t handle busy) : c.opened.head? = some c.current := by
  obtain ⟨inner, hinner⟩ := h.exists_inner
  rw [Cursor.current, hinner]
  cases inner <;> rfl

/-- A change that keeps the scopes with their names. -/
theorem congr {g : ScopeGraph ν} (h : c.Named t handle busy)
    (hg : g.NamesComplete t handle busy) (hsame : c.graph.SamePositions g) :
    Named t handle busy { c with graph := g } where
  toNamesComplete := hg
  toStacked := h.toStacked.congr hsame
  current := by
    show g.kindOf? c.current = _ → _
    rw [hsame.kindOf?]
    exact h.current

theorem refer (h : c.Named t handle busy) (o : Occurrence ν) :
    Named t handle busy { c with graph := c.graph.addReference (c.reference o) } := by
  have hsame : c.graph.SameNames (c.graph.addReference (c.reference o)) := by
    refine ⟨.addReference _ _, fun s _ => ?_⟩
    rw [ScopeGraph.tableOf, ScopeGraph.getScope?_addReference, ScopeGraph.tableOf]
    split
    · cases c.graph.getScope? s <;> rfl
    · rfl
  exact h.congr (h.sameNames hsame) hsame.samePositions

theorem this (h : c.Named t handle busy) (s : ScopeId) : Named t handle busy
    { c with graph := c.graph.modifyScope s fun s => { s with thisFound := true } } := by
  have hsame : c.graph.SameNames (c.graph.modifyScope s fun s => { s with thisFound := true }) :=
    .modifyScope (by exact fun _ => rfl) (by exact fun _ => rfl) s
  exact h.congr (h.sameNames hsame) hsame.samePositions

theorem current_lt (h : c.Named t handle busy) : c.current.index < c.graph.scopes.size :=
  h.lt_size _ (List.mem_of_mem_head? h.head?_opened)

/-- A new scope may be that of a name which is still to come. -/
theorem enter (h : c.Named t handle busy) (kind : ScopeKind) (block : NodeId) (strict : Bool)
    (hbusy : ∀ s ∈ busy, c.graph.blockOf s = some block ∧
      (c.graph.openScope kind block strict (some c.current)).Complete t handle s) :
    (c.enter kind block strict).Named t handle
      (if kind = .functionName then some c.graph.nextScope else none) := by
  have hgraph : (c.enter kind block strict).graph =
      c.graph.openScope kind block strict (some c.current) := by
    rw [Cursor.enter, h.head?_opened]
  have hblock (hkind : c.graph.kindOf? c.current = some .functionName) :
      c.graph.blockOf c.current = some block := (hbusy _ (h.current hkind)).1
  refine ⟨?_, ?_, fun hkind => ?_⟩
  · rw [hgraph]
    exact h.openScope kind block strict h.current_lt h.current fun s hs => (hbusy s hs).2
  · rw [hgraph]
    exact h.toStacked.openScope kind block strict h.head?_opened hblock
  · have hnext : (c.enter kind block strict).current = c.graph.nextScope := rfl
    rw [hgraph, hnext, ScopeGraph.kindOf?_nextScope] at hkind
    rw [if_pos (Option.some.inj hkind), hnext]

/-- No declaration goes to the scope of a name that is complete. -/
theorem kindOf?_place (h : c.Named t handle none) (place : Place) :
    c.graph.kindOf? (c.place place) ≠ some .functionName := by
  cases place with
  | current => exact fun hkind => nomatch h.current hkind
  | variableScope => exact (h.variableScope _ h.current_lt).2

variable [DecidableEq ν]

/-- A name is declared in a scope other than that of a name, or in the one that waits for it. -/
theorem declare (h : c.Named t handle busy) {s : ScopeId}
    (hs : c.graph.kindOf? s = some .functionName → busy = some s) (name : ν)
    (d : Option Definition) :
    Named t handle busy { c with graph := c.graph.declare s name d } := by
  have hsame : c.graph.SameTree (c.graph.declare s name d) := .declare _ _ _ _
  refine h.congr (h.toNamesComplete.congr hsame fun x hx hkind => ?_) hsame.samePositions
  have hne : x ≠ s := by
    rintro rfl
    exact hx (hs hkind).symm
  rw [ScopeGraph.tableOf, ScopeGraph.getScope?_declare, ScopeGraph.getScope?_bind,
    if_neg fun heq => hne heq.1, ScopeGraph.tableOf]

/-- Leaving a function leaves the scope of its name as well. -/
theorem leaveAll {g : ScopeGraph ν} {opened : List ScopeId} {n : NodeId} (hn : n ≠ t.root)
    (h : g.NamesComplete t handle none) (hopened : g.Stacked opened)
    (hhead : ∀ s ∈ opened.head?, g.kindOf? s = some .functionName → g.blockOf s = some n) :
    Named t handle none (Cursor.leaveAll t n g opened) := by
  induction opened generalizing g with
  | nil =>
    obtain ⟨inner, hinner⟩ := hopened.exists_inner
    cases inner <;> cases hinner
  | cons s outer ih =>
    obtain ⟨scope, hscope⟩ := ScopeGraph.getScope?_of_lt (hopened.lt_size s (List.mem_cons_self ..))
    have hblock : g.blockOf s = some scope.block := by rw [ScopeGraph.blockOf, hscope]; rfl
    rw [Cursor.leaveAll, hscope, Option.any_some]
    by_cases hat : scope.block = n
    · have hsame := ScopeGraph.SameNames.closeScope t g s
      have hpositions := hsame.samePositions
      rw [hat] at hblock
      have hinner : ∃ inner, outer = inner ++ [.global] := by
        obtain ⟨inner, hinner⟩ := hopened.exists_inner
        cases inner with
        | nil =>
          obtain rfl : s = .global := (List.cons.inj hinner).1
          rw [h.blockOf_global] at hblock
          exact absurd (Option.some.inj hblock).symm hn
        | cons x inner => exact ⟨inner, (List.cons.inj hinner).2⟩
      have houter : g.Stacked outer :=
        ⟨hinner, fun x hx => hopened.lt_size x (List.mem_cons_of_mem _ hx), hopened.isChain.tail⟩
      rw [decide_eq_true hat, if_pos rfl]
      refine ih (h.sameNames hsame) (houter.congr hpositions) fun x hx hkind => ?_
      rw [hpositions.kindOf?] at hkind
      rw [hpositions.blockOf, ← hblock]
      cases outer with
      | nil => cases hx
      | cons y outer =>
        obtain rfl : y = x := Option.some.inj hx
        exact ((List.isChain_cons_cons.1 hopened.isChain).1 hkind).symm
    · rw [decide_eq_false hat, if_neg Bool.false_ne_true]
      refine ⟨h, hopened, fun hkind => ?_⟩
      have hname := hhead s rfl hkind
      rw [hblock, Option.some.injEq] at hname
      exact absurd hname hat

theorem leave (h : c.Named t handle none) {n : NodeId} (hn : n ≠ t.root) :
    (c.leave t n).Named t handle none := by
  refine leaveAll hn h.toNamesComplete h.toStacked fun s hs hkind => ?_
  rw [h.head?_opened] at hs
  obtain rfl := Option.some.inj hs
  exact nomatch h.current hkind

end Named

end Cursor

section Steps

variable [DecidableEq ν] {t : Tree} {handle : String → ν} {n : NodeId}

/-- Steps between which the scopes of names are complete. -/
def KeepsNames (t : Tree) (handle : String → ν) (steps : Outline) : Prop :=
  ∀ c : Cursor ν, c.Named t handle none →
    (c.run t (steps.map (.mapName handle))).Named t handle none

theorem Tree.functionNameSteps_eq {f : Function} {id : NodeId} (hid : f.id = some id) :
    t.functionNameSteps n (.functionExpression f) = .enter .functionName n false ::
      t.declareAt .current id { kind := .functionName, name := id, node := n } := by
  obtain ⟨_, _, _, _, _⟩ := f
  obtain rfl := hid
  rfl

/-- The scope of a name opens and gets its name. -/
theorem Cursor.Named.run_functionNameSteps {c : Cursor ν} (h : c.Named t handle none)
    {f : Function} {id : NodeId} (hid : f.id = some id) :
    let c' := c.run t ((t.functionNameSteps n (.functionExpression f)).map (.mapName handle))
    c'.Named t handle (some c'.current) ∧ ∃ scope, c'.graph.getScope? c'.current = some scope ∧
      scope.kind = .functionName ∧ scope.block = n ∧ scope.children = #[] ∧
      scope.table.keys = (t.identifierName? id).toList.map handle := by
  have henter := h.enter .functionName n false fun s hs => nomatch hs
  have hscope : (c.enter .functionName n false).graph.getScope? c.graph.nextScope =
      some (c.graph.opening .functionName n false (some c.current)) := by
    rw [Cursor.enter, h.head?_opened, ScopeGraph.getScope?_openScope, if_pos rfl]
  rw [Tree.functionNameSteps_eq hid, Tree.declareAt]
  cases t.identifierName? id with
  | none => exact ⟨henter, _, hscope, rfl, rfl, rfl, rfl⟩
  | some name =>
    have hempty : (c.enter .functionName n false).graph.inTable? c.graph.nextScope (handle name) =
        none := by
      rw [ScopeGraph.inTable?, hscope]
      rfl
    have hdeclared (d : Option Definition) :
        ((c.enter .functionName n false).graph.declare c.graph.nextScope (handle name) d).getScope?
            c.graph.nextScope =
          (some (c.graph.opening .functionName n false (some c.current))).map fun s =>
            { s with
              table := s.table.insert (handle name)
                (c.enter .functionName n false).graph.nextVariable } := by
      rw [ScopeGraph.getScope?_declare, ScopeGraph.getScope?_bind, if_pos ⟨rfl, hempty⟩, hscope]
    refine ⟨henter.declare (fun _ => rfl) _ _, _, hdeclared _, rfl, rfl, rfl, ?_⟩
    exact OrderedMap.keys_insert _ _ _

/-- The scope of the function opens in that of its name. -/
theorem keepsNames_enterNamed {f : Function} {id : NodeId} {strict : Bool}
    (hkind : t.kind? n = some (.functionExpression f)) (hid : f.id = some id) :
    KeepsNames t handle
      (t.functionNameSteps n (.functionExpression f) ++ [.enter .function n strict]) := by
  intro c h
  obtain ⟨hnamed, scope, hscope, hname, hblock, hchildren, hkeys⟩ :=
    h.run_functionNameSteps (n := n) hid
  rw [List.map_append, Cursor.run, List.foldl_append]
  change (Cursor.enter _ .function n strict).Named t handle none
  refine hnamed.enter .function n strict fun s hs => ?_
  obtain rfl := Option.some.inj hs
  refine ⟨by rw [ScopeGraph.blockOf, hscope, Option.map_some, hblock], fun scope' hscope' _ => ?_⟩
  have hne := ScopeGraph.ne_nextScope_of_lt hnamed.current_lt
  rw [ScopeGraph.getScope?_openScope, if_neg hne, if_pos rfl, hscope, Option.map_some,
    Option.some.injEq] at hscope'
  subst hscope'
  refine ⟨⟨_, ?_, ScopeGraph.kindOf?_nextScope .function n strict _, ?_⟩, f, id, ?_, hid, hkeys⟩
  · show scope.children.push _ = _
    rw [hchildren]
    rfl
  · show _ = some scope.block
    rw [ScopeGraph.Nested.blockOf_nextScope, hblock]
  · show t.kind? scope.block = _
    rw [hblock, hkind]

namespace KeepsNames

variable {steps steps' : Outline}

theorem nil : KeepsNames t handle [] :=
  fun _ h => h

theorem append (h : KeepsNames t handle steps) (h' : KeepsNames t handle steps') :
    KeepsNames t handle (steps ++ steps') := by
  intro c hc
  rw [List.map_append, Cursor.run, List.foldl_append]
  exact h' _ (h c hc)

theorem flatMap {α : Type} {l : List α} {f : α → Outline} (h : ∀ x ∈ l, KeepsNames t handle (f x)) :
    KeepsNames t handle (l.flatMap f) := by
  induction l with
  | nil => exact nil
  | cons x l ih =>
    rw [List.flatMap_cons]
    exact (h x (List.mem_cons_self ..)).append (ih fun y hy => h y (List.mem_cons_of_mem _ hy))

theorem still {step : Step String} (h : step.IsStill) : KeepsNames t handle [step] := by
  intro c hc
  cases step with
  | enter | leave => exact h.elim
  | declare place name d => exact hc.declare (fun hkind => absurd hkind (hc.kindOf?_place place)) _ _
  | refer o => exact hc.refer _
  | this => exact hc.this _
  | misplacedImport => exact hc

theorem enter (kind : ScopeKind) (hkind : kind ≠ .functionName) (n : NodeId) (strict : Bool) :
    KeepsNames t handle [.enter kind n strict] := by
  intro c hc
  have henter := hc.enter kind n strict fun s hs => nomatch hs
  rwa [if_neg hkind] at henter

theorem leave (hn : n ≠ t.root) : KeepsNames t handle [.leave n] :=
  fun _ hc => hc.leave hn

end KeepsNames

theorem assembles_keepsNames {visitIn : Context → NodeId → Outline} (hn : n.index < t.root.index)
    (hvisit : ∀ c (m : NodeId), m.index < n.index → KeepsNames t handle (visitIn c m))
    (c : Context) : t.Assembles visitIn c n (KeepsNames t handle) where
  nil := .nil
  append := .append
  still := .still
  enter hkind _ _ := .enter _ hkind _ _
  enterNamed hkind hid _ := keepsNames_enterNamed hkind hid
  leave {m} hm := by
    refine .leave ?_
    rintro rfl
    rcases hm with heq | hm
    · exact Nat.lt_irrefl _ (heq ▸ hn)
    · exact Nat.lt_asymm hn (Tree.index_lt_of_mem_childrenOf hm)
  visit _ hm := hvisit _ _ hm.index_lt

/-- The scopes of names are complete after the steps below a node. -/
theorem keepsNames_stepsWithin {fuel : Nat} (c : Context) (hn : n.index < t.root.index) :
    KeepsNames t handle (t.stepsWithin fuel c n) := by
  induction fuel generalizing c n with
  | zero => exact .nil
  | succ fuel ih =>
    rw [Tree.stepsWithin]
    cases hkind : t.kind? n with
    | none => exact .nil
    | some kind =>
      exact (assembles_keepsNames hn (fun c m hm => ih c (Nat.lt_trans hm hn)) c).stepsOfKind hkind

variable (handle) in
theorem Tree.exists_keepsNames {o : LanguageOptions} {outline : Outline}
    (h : t.outline? o = some outline) : ∃ strict steps,
      outline = .enter .global t.root strict :: steps ++ [.leave t.root] ∧
        KeepsNames t handle steps := by
  obtain ⟨body, sourceType, hroot, rfl⟩ := Tree.exists_program_of_outline? h
  have hkind := Tree.kind?_root_of_program hroot
  have henter (extra : Outline) (hextra : KeepsNames t handle extra) (condition : Bool) :
      KeepsNames t handle (if condition then extra else []) := by
    cases condition with
    | true => exact hextra
    | false => exact .nil
  have hfunction (strict : Bool) :
      KeepsNames t handle (Tree.enterFunction t.root strict false) := by
    have henter : KeepsNames t handle [.enter .function t.root strict] :=
      .enter .function (by decide) _ _
    have harguments : KeepsNames t handle [.declare .current "arguments" none] := .still trivial
    exact henter.append harguments
  have hbody : KeepsNames t handle
      (body.flatMap (t.steps { isModule := o.isModuleFor sourceType })) :=
    .flatMap fun m hm => keepsNames_stepsWithin _ (Tree.index_lt_of_mem_children hkind hm)
  exact ⟨_, _, rfl, ((henter _ (hfunction _) _).append
    (henter _ (.enter .module (by decide) t.root true) _)).append hbody⟩

omit [DecidableEq ν] in
/-- A new graph has no scope of a name. -/
theorem Cursor.Named.root (strict : Bool) :
    (({} : Cursor ν).enter .global t.root strict).Named t handle none where
  complete s _ scope hscope hkind := by
    have hroot : (ScopeGraph.root t.root strict : ScopeGraph ν).getScope? s = some scope := hscope
    rw [ScopeGraph.getScope?_root] at hroot
    split at hroot
    · obtain rfl := Option.some.inj hroot
      cases hkind
    · cases hroot
  kindOf?_global := rfl
  blockOf_global := rfl
  variableScope s hs := by
    obtain rfl := ScopeGraph.eq_global_of_lt_root (ν := ν) t.root strict hs
    exact ⟨hs, fun hkind => by cases hkind⟩
  exists_inner := ⟨[], rfl⟩
  lt_size := List.forall_mem_singleton.2 Nat.zero_lt_one
  isChain := .singleton _
  current hkind := by cases hkind

theorem ScopeGraph.SameNames.leaveAll (n : NodeId) (g : ScopeGraph ν) (opened : List ScopeId) :
    g.SameNames (Cursor.leaveAll t n g opened).graph := by
  induction opened generalizing g with
  | nil => exact .refl g
  | cons s outer ih =>
    rw [Cursor.leaveAll]
    split
    · exact (ScopeGraph.SameNames.closeScope t g s).trans (ih _)
    · exact .refl g

theorem ScopeGraph.namesComplete_ofSteps {o : LanguageOptions} {outline : Outline}
    (h : t.outline? o = some outline) :
    (ScopeGraph.ofSteps t (outline.map (.mapName handle))).NamesComplete t handle none := by
  obtain ⟨strict, steps, rfl, hsteps⟩ := Tree.exists_keepsNames handle h
  rw [ScopeGraph.ofSteps, Cursor.run, List.map_append, List.foldl_append]
  have hnamed := hsteps (({} : Cursor ν).enter .global t.root strict) (.root strict)
  exact hnamed.sameNames (ScopeGraph.SameNames.leaveAll t.root _ _)

theorem ScopeGraph.namesComplete_ofOutline {o : LanguageOptions} {outline : Outline}
    (h : t.outline? o = some outline) (settings : GlobalSettings ν) :
    (ScopeGraph.ofOutline t (outline.map (.mapName handle)) settings).NamesComplete t handle
      none := by
  have hsteps : (ScopeGraph.ofSteps t (outline.map (.mapName handle))).NamesComplete t handle
      none := ScopeGraph.namesComplete_ofSteps h
  exact hsteps.sameNames ((ScopeGraph.SameNames.stable _).steady.finalize settings (.refl _))

end Steps

namespace ScopeGraph

variable {t : Tree} {handle : String → ν} {g : ScopeGraph ν} {n : NodeId} {inner : Bool}
  {s : ScopeId}

/-- Whichever end is asked for, there is one unless nothing is anchored at the node. -/
theorem exists_end {l : List ScopeId} (hl : l ≠ []) (inner : Bool) :
    ∃ s ∈ l, (if inner then l.getLast? else l.head?) = some s := by
  cases inner with
  | true => exact ⟨_, List.getLast_mem hl, List.getLast?_eq_some_getLast hl⟩
  | false => exact ⟨_, List.head_mem hl, List.head?_eq_some_head hl⟩

theorem acquire_eq_none (h : g.scopesOf n = []) (inner : Bool) : g.acquire n inner = none := by
  rw [acquire, h]
  cases inner <;> rfl

/-- The scope of a name gives way to that of its function. -/
theorem NamesComplete.exists_acquire (hg : g.NamesComplete t handle none)
    (hanchored : ∀ s ∈ g.scopesOf n, g.blockOf s = some n) (h : g.scopesOf n ≠ [])
    (inner : Bool) : ∃ s scope, g.acquire n inner = some s ∧ g.getScope? s = some scope ∧
      scope.block = n ∧ scope.kind ≠ .functionName := by
  obtain ⟨s, hs, hend⟩ := exists_end h inner
  obtain ⟨scope, hscope, hblock⟩ := Option.map_eq_some_iff.1 (hanchored s hs)
  have hacquire : g.acquire n inner =
      if scope.kind = .functionName then scope.children[0]? else some s := by
    cases inner with
    | true =>
      have hlast : (g.scopesOf n).getLast? = some s := hend
      simp [acquire, hlast, hscope]
    | false =>
      have hhead : (g.scopesOf n).head? = some s := hend
      simp [acquire, hhead, hscope]
  rw [hacquire]
  split
  · next hkind =>
    obtain ⟨f, hchildren, hfunction, hblockOf⟩ :=
      (hg.complete s (Option.some_ne_none s) scope hscope hkind).exists_function
    obtain ⟨function, hget, hfunction⟩ := Option.map_eq_some_iff.1 hfunction
    refine ⟨f, function, by rw [hchildren]; rfl, hget, ?_, by rw [hfunction]; exact nofun⟩
    rw [blockOf, hget, Option.map_some, Option.some.injEq] at hblockOf
    exact hblockOf.trans hblock
  · next hkind => exact ⟨s, scope, rfl, hscope, hblock, hkind⟩

end ScopeGraph

section Analyze

variable {names names' : NameTable} {t : Tree} {o : LanguageOptions} {envs : Environments}
  {g : ScopeGraph Name}

theorem namesComplete_of_analyze (h : analyze names t o envs = (names', .ok g)) :
    g.NamesComplete t names'.handle none := by
  obtain ⟨outline, houtline, -, rfl⟩ := outline?_of_analyze h
  exact ScopeGraph.namesComplete_ofOutline houtline _

/-- The same, with texts in place of handles. -/
theorem namesComplete_mapNames_tag (h : analyze names t o envs = (names', .ok g)) :
    (g.mapNames names'.tag).NamesComplete t .inl none := by
  obtain ⟨outline, houtline, hnames', hg⟩ := outline?_of_analyze h
  have hsettings (name : String) (hname : name ∈ (GlobalSettings.ofFile o envs t.comments).names) :
      name ∈ names'.texts := by
    rw [hnames', NameTable.mem_texts_addAll]
    exact .inr hname
  rw [hg, Tree.mapNames_tag_ofOutline names' (fun _ => mem_texts_of_analyze h houtline) hsettings,
    ScopeGraph.mapNames_ofOutline Sum.inl_injective]
  exact ScopeGraph.namesComplete_ofOutline houtline _

/-- The table of the scope of a name has the handle of that name. -/
theorem exists_name_of_analyze (h : analyze names t o envs = (names', .ok g)) {s : ScopeId}
    {scope : Scope Name} (hscope : g.getScope? s = some scope)
    (hkind : scope.kind = .functionName) :
    ∃ function id, t.kind? scope.block = some (.functionExpression function) ∧
      function.id = some id ∧
      scope.table.keys.map names'.resolve? = (t.identifierName? id).toList.map some := by
  have htagged : (g.mapNames names'.tag).getScope? s = some (scope.mapNames names'.tag) := by
    rw [ScopeGraph.getScope?_mapNames, hscope]
    rfl
  obtain ⟨function, id, hfunction, hid, hkeys⟩ :=
    ((namesComplete_mapNames_tag h).complete s (Option.some_ne_none s) _ htagged hkind).exists_id
  refine ⟨function, id, hfunction, hid, ?_⟩
  have hmap : (scope.table.mapKeys names'.tag).keys = scope.table.keys.map names'.tag :=
    OrderedMap.keys_mapKeys (ScopeGraph.injOn_keys names'.tag_injective _)
  have hleft : (Sum.getLeft? ∘ names'.tag) = names'.resolve? := by
    funext n
    rw [Function.comp_apply, NameTable.tag]
    cases names'.resolve? n <;> rfl
  have htexts := congrArg (List.map Sum.getLeft?) (hmap.symm.trans hkeys)
  rw [List.map_map, List.map_map, hleft] at htexts
  exact htexts

/-- Asking for the scope at a node finds one wherever one is anchored, and never that of a name.
Such a scope has in it the scope of its function alone, and the name of the function, if this is
an identifier, and no other. -/
theorem acquire_of_analyze (h : analyze names t o envs = (names', .ok g)) :
    (∀ (n : NodeId) (inner : Bool),
      (g.acquire n inner = none ↔ ∀ s scope, g.getScope? s = some scope → scope.block ≠ n) ∧
      ∀ s, g.acquire n inner = some s →
        ∃ scope, g.getScope? s = some scope ∧ scope.block = n ∧ scope.kind ≠ .functionName) ∧
    ∀ s scope, g.getScope? s = some scope → scope.kind = .functionName →
      (∃ f function, scope.children = #[f] ∧ g.getScope? f = some function ∧
        function.kind = .function ∧ function.block = scope.block) ∧
      ∃ function id, t.kind? scope.block = some (.functionExpression function) ∧
        function.id = some id ∧
        scope.table.keys.map names'.resolve? = (t.identifierName? id).toList.map some := by
  have hnames := namesComplete_of_analyze h
  obtain ⟨hnested, -⟩ := nested_of_analyze h
  refine ⟨fun n inner => ?_, fun s scope hscope hkind => ?_⟩
  · have hmem (s : ScopeId) : s ∈ g.scopesOf n ↔
        ∃ scope, g.getScope? s = some scope ∧ scope.block = n := by
      rw [hnested.scopesOf_eq, List.mem_filter, ScopeGraph.mem_scopeIds_iff, decide_eq_true_iff,
        ScopeGraph.blockOf, Option.map_eq_some_iff]
      exact ⟨And.right, fun hs => ⟨ScopeGraph.lt_of_getScope? hs.choose_spec.1, hs⟩⟩
    by_cases hscopes : g.scopesOf n = []
    · have hnone := ScopeGraph.acquire_eq_none hscopes inner
      rw [hnone]
      refine ⟨⟨fun _ s scope hscope hblock => ?_, fun _ => rfl⟩, fun s hs => ?_⟩
      · have hanchored := (hmem s).2 ⟨scope, hscope, hblock⟩
        rw [hscopes] at hanchored
        cases hanchored
      · cases hs
    · have hanchored (s : ScopeId) (hs : s ∈ g.scopesOf n) : g.blockOf s = some n :=
        Option.map_eq_some_iff.2 ((hmem s).1 hs)
      obtain ⟨s, scope, hacquire, hscope, hblock, hkind⟩ :=
        hnames.exists_acquire hanchored hscopes inner
      rw [hacquire]
      refine ⟨⟨fun heq => absurd heq (Option.some_ne_none s), fun hnone =>
        absurd hblock (hnone s scope hscope)⟩, fun s' hs' => ?_⟩
      obtain rfl := Option.some.inj hs'
      exact ⟨scope, hscope, hblock, hkind⟩
  · obtain ⟨f, hchildren, hfunction, hblock⟩ :=
      (hnames.complete s (Option.some_ne_none s) scope hscope hkind).exists_function
    obtain ⟨function, hget, hfunctionKind⟩ := Option.map_eq_some_iff.1 hfunction
    rw [ScopeGraph.blockOf, hget, Option.map_some, Option.some.injEq] at hblock
    exact ⟨⟨f, function, hchildren, hget, hfunctionKind, hblock⟩,
      exists_name_of_analyze h hscope hkind⟩

/-- `class C { x = function f() {} }` -/
def namedInField : Build NodeId := do
  let f ← .functionExpression (some "f") [] []
  let field ← .propertyDefinition "x" (some f) false
  let c ← .classDeclaration (some "C") none [field]
  .alloc (.program [c] .script)

/-- The scopes of the initializer, of the name and of the function are all anchored at the function.
The one in the middle is not to be had, and the name in it is that of the function. -/
theorem acquire_namedInField : ∃ t names g scope id, Build.tree namedInField = .ok t ∧
    analyze {} t {} {} = (names, .ok g) ∧ g.scopesOf ⟨2⟩ = [⟨2⟩, ⟨3⟩, ⟨4⟩] ∧
    g.getScope? ⟨3⟩ = some scope ∧ scope.kind = .functionName ∧
    g.acquire ⟨2⟩ false ≠ some ⟨3⟩ ∧ g.acquire ⟨2⟩ true ≠ some ⟨3⟩ ∧
    (∃ f function, scope.children = #[f] ∧ g.getScope? f = some function ∧
      function.kind = .function ∧ function.block = scope.block) ∧
    t.identifierName? id = some "f" ∧ scope.table.keys.map names.resolve? = [some "f"] := by
  obtain ⟨t, names, g, ht, h, hscopes, hthird⟩ := exists_analysis namedInField {} {}
    (fun _ names g => g.scopesOf ⟨2⟩ = [⟨2⟩, ⟨3⟩, ⟨4⟩] ∧
      (g.getScope? ⟨3⟩).map (fun scope => (scope.kind, scope.table.keys.map names.resolve?)) =
        some (.functionName, [some "f"]))
    (by decide +kernel)
  obtain ⟨scope, hscope, hpair⟩ := Option.map_eq_some_iff.1 hthird
  obtain ⟨hkind, hf⟩ := Prod.mk.inj hpair
  obtain ⟨hacquire, hname⟩ := acquire_of_analyze h
  have hnever (inner : Bool) : g.acquire ⟨2⟩ inner ≠ some ⟨3⟩ := by
    intro hthis
    obtain ⟨_, hget, -, hnot⟩ := (hacquire ⟨2⟩ inner).2 ⟨3⟩ hthis
    rw [hscope, Option.some.injEq] at hget
    exact hnot (hget ▸ hkind)
  obtain ⟨hfunction, function, id, -, -, htexts⟩ := hname ⟨3⟩ scope hscope hkind
  have hid : t.identifierName? id = some "f" := by
    rw [hf] at htexts
    cases hid : t.identifierName? id with
    | none =>
      rw [hid] at htexts
      cases htexts
    | some name =>
      rw [hid] at htexts
      exact (List.cons.inj htexts).1.symm
  exact ⟨t, names, g, scope, id, ht, h, hscopes, hscope, hkind, hnever false, hnever true,
    hfunction, hid, hf⟩

end Analyze

end LexicalScope
