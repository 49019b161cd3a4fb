import LexicalScope.Proofs.VisitorOutline

/-!
The whole pass. It begins with the scopes anchored at the root, all of them open, and ends with
none open and each scope closed once. As its visits follow the outline, analysis may be read as
this pass: it fails where the pass fails, and it ends in the graph of the pass with the settings
of the file applied.
-/
namespace LexicalScope

section Arrays

variable {α : Type}

theorem modify_push {l : Array α} {i : Nat} (hi : i = l.size) (x : α) (f : α → α) :
    (l.push x).modify i f = l.push (f x) := by
  subst hi
  ext i h h'
  · rw [Array.size_modify, Array.size_push, Array.size_push]
  · rw [Array.size_push] at h'
    rw [Array.getElem_modify, Array.getElem_push, Array.getElem_push]
    by_cases hi : i < l.size
    · rw [if_neg (by omega), dif_pos hi, dif_pos hi]
    · rw [if_pos (by omega), dif_neg hi, dif_neg hi]

theorem modify_comm (l : Array α) (i j : Nat) {f h : α → α} (hcomm : ∀ x, f (h x) = h (f x)) :
    (l.modify i f).modify j h = (l.modify j h).modify i f := by
  ext k hk hk'
  · simp only [Array.size_modify]
  · simp only [Array.getElem_modify]
    by_cases hi : i = k <;> by_cases hj : j = k <;> simp [hi, hj, hcomm]

end Arrays

namespace Visitor

open Stage

variable {ν : Type} {t : Tree} {v : Visitor ν} {A : List Anchored}

section Strict

/-- A scope may be made strict as it is opened or afterwards. -/
theorem setStrict_nest (v : Visitor ν) (kind : ScopeKind) (block : NodeId) (strict : Bool) :
    (v.nest kind block strict).setStrict true = v.nest kind block true := by
  obtain ⟨g, current, closed, inMethod, isModule⟩ := v
  cases current with
  | none =>
    simp [setStrict, nest, scope, ScopeGraph.modifyScope, ScopeGraph.openScope,
      ScopeGraph.nextScope, modify_push]
  | some u =>
    have hsize : g.scopes.size = (g.scopes.modify u.index fun s =>
        { s with children := s.children.push ⟨g.scopes.size⟩ }).size := Array.size_modify.symm
    simp [setStrict, nest, scope, ScopeGraph.modifyScope, ScopeGraph.openScope,
      ScopeGraph.nextScope, modify_push hsize]

/-- Around the outermost scope nothing is strict. -/
theorem setStrict_nest_outermost (hv : v.current = none) (kind : ScopeKind) (block : NodeId)
    (strict strict' : Bool) :
    (v.nest kind block strict).setStrict strict' = v.nest kind block strict' := by
  obtain ⟨g, current, closed, inMethod, isModule⟩ := v
  subst hv
  simp [setStrict, nest, scope, ScopeGraph.modifyScope, ScopeGraph.openScope,
    ScopeGraph.nextScope, modify_push]

variable [DecidableEq ν] {handle : String → ν}

theorem setStrict_declareName (v : Visitor ν) (s : ScopeId) (name : String) (strict : Bool) :
    (v.declareName handle s name none).setStrict strict =
      (v.setStrict strict).declareName handle s name none := by
  obtain ⟨g, current, closed, inMethod, isModule⟩ := v
  have htable : (g.modifyScope (current.getD .global) fun x =>
      { x with isStrict := strict }).inTable? s (handle name) = g.inTable? s (handle name) :=
    g.inTable?_modifyScope (by exact fun _ => rfl) _ s (handle name)
  simp only [setStrict, declareName, scope, ScopeGraph.declare, ScopeGraph.bind, htable]
  cases g.inTable? s (handle name) with
  | some v => rfl
  | none =>
    simp only [ScopeGraph.modifyScope, ScopeGraph.addVariable, ScopeGraph.nextVariable,
      Option.elim_none, Visitor.mk.injEq, ScopeGraph.mk.injEq, and_self, and_true]
    exact modify_comm _ _ _ fun _ => rfl

theorem setStrict_nestFunction (v : Visitor ν) (n : NodeId) (strict isArrow : Bool) :
    (v.nestFunction handle n strict isArrow).setStrict true =
      v.nestFunction handle n true isArrow := by
  cases isArrow with
  | true => exact setStrict_nest v .function n strict
  | false =>
    show ((v.nest .function n strict).declareName handle v.graph.nextScope "arguments"
      none).setStrict true = _
    rw [setStrict_declareName, setStrict_nest]
    rfl

/-- The strictness that is set once the scopes at the root are open is that which the outline
gives them. -/
theorem enterProgram_eq (hv : v.current = none) (o : LanguageOptions) (sourceType : SourceType) :
    let wrapped := o.globalReturnFor sourceType
    let isModule := o.isModuleFor sourceType
    let useStrict := t.hasUseStrict t.root
    let strict := fun isInnermost own => own || (isInnermost && o.impliedStrict)
    let outermost := v.nest .global t.root
      (strict (!wrapped && !isModule) (!wrapped && useStrict))
    let inner := if wrapped then
        outermost.nestFunction handle t.root (strict (!isModule) useStrict) false
      else outermost
    v.enterProgram t handle o sourceType =
      if isModule then inner.nest .module t.root true else inner := by
  unfold enterProgram
  cases o.impliedStrict <;> cases o.globalReturnFor sourceType <;>
    cases o.isModuleFor sourceType <;>
    simp [setStrict_nest, setStrict_nest_outermost hv, setStrict_nestFunction]

end Strict

variable [DecidableEq ν] {handle : String → ν} {steps extra : Outline}

/-- A visitor that has opened nothing but scopes at the root, as the given steps do. -/
structure Begun (t : Tree) (handle : String → ν) (steps : Outline) (v : Visitor ν)
    (A : List Anchored) : Prop where
  holds : v.Holds t A
  at_root : ∀ p ∈ A, p.2 = t.root
  all_open : ∀ s : ScopeId, s.index < v.graph.scopes.size → s ∈ v.opened
  closed_eq : v.closed = []
  cursor_eq : v.cursor = Cursor.run t {} (steps.map (.mapName handle))

namespace Begun

theorem root (hroot : t.isProgram t.root) (strict isModule : Bool) :
    Begun t handle [.enter .global t.root strict]
      (Visitor.nest .global t.root strict { isModule }) [(.global, t.root)] := by
  have hrooted : (ScopeGraph.root t.root strict : ScopeGraph ν).Rooted :=
    ScopeGraph.rooted_root t.root strict
  have hlt : ScopeId.global.index < (ScopeGraph.root t.root strict : ScopeGraph ν).scopes.size :=
    Nat.zero_lt_one
  have hblock : (ScopeGraph.root t.root strict : ScopeGraph ν).blockOf .global = some t.root := by
    rw [ScopeGraph.blockOf, ScopeGraph.getScope?_root, if_pos rfl]
    rfl
  have hopened : (Visitor.nest .global t.root strict ({ isModule } : Visitor ν)).opened =
      [.global] :=
    hrooted.chain_outermost hlt (ScopeGraph.upper?_root t.root strict .global)
  exact {
    holds := {
      sound := {
        rooted := hrooted
        current_lt := fun s hs => Option.some.inj hs ▸ hlt
        program := ⟨t.root, hblock, hroot⟩ }
      opened_eq := hopened
      blockOf_eq := List.forall_mem_singleton.2 hblock
      ne_nil := List.cons_ne_nil _ _ }
    at_root := List.forall_mem_singleton.2 rfl
    all_open := fun s hs => by
      rw [hopened, ScopeGraph.eq_global_of_lt_root t.root strict hs]
      exact List.mem_singleton_self _
    closed_eq := rfl
    cursor_eq := by
      rw [cursor, hopened]
      rfl }

theorem nest (h : v.Begun t handle steps A) (kind : ScopeKind) (strict : Bool) :
    ∃ s, (v.nest kind t.root strict).Begun t handle (steps ++ [.enter kind t.root strict])
      ((s, t.root) :: A) := by
  have hnest := h.holds.nest kind t.root strict
  refine ⟨_, hnest, List.forall_mem_cons.2 ⟨rfl, h.at_root⟩, fun s hs => ?_, h.closed_eq, ?_⟩
  · rw [hnest.opened_eq, List.map_cons, ← h.holds.opened_eq]
    rcases ScopeGraph.lt_or_eq_nextScope (ScopeGraph.size_scopes_openScope ..) hs with hs | rfl
    · exact List.mem_cons_of_mem _ (h.all_open s hs)
    · exact List.mem_cons_self ..
  · rw [h.holds.cursor_nest, h.cursor_eq, Cursor.run, Cursor.run, List.map_append,
      List.foldl_append]
    rfl

theorem nestFunction (h : v.Begun t handle steps A) (strict isArrow : Bool) :
    ∃ s, (v.nestFunction handle t.root strict isArrow).Begun t handle
      (steps ++ Tree.enterFunction t.root strict isArrow) ((s, t.root) :: A) := by
  obtain ⟨s, hs⟩ := h.nest .function strict
  refine ⟨s, ?_⟩
  cases isArrow with
  | true => exact hs
  | false =>
    have hdeclare : Inside t handle (v.nest .function t.root strict) ((s, t.root) :: A)
        (lift fun v => v.declareName handle v.scope "arguments" none)
        [.declare .current "arguments" none] := inside_declareName (fun _ _ => rfl) _ _
    obtain ⟨-, hcursor, -, hholds⟩ := hdeclare _ hs.holds.stands
    refine ⟨hholds, hs.at_root, fun x hx => ?_, hs.closed_eq, ?_⟩
    · have hsame := (ScopeGraph.revises_declare (v.nest .function t.root strict).graph
        v.graph.nextScope (handle "arguments") none).samePositions
      have hopened : (v.nestFunction handle t.root strict false).opened =
          (v.nest .function t.root strict).opened :=
        hholds.opened_eq.trans hs.holds.opened_eq.symm
      rw [hopened]
      exact hs.all_open x ((hsame.lt_size_iff x).1 hx)
    · refine hcursor.trans ?_
      rw [hs.cursor_eq, Cursor.run, Cursor.run, Cursor.run, ← List.foldl_append, ← List.map_append,
        List.append_assoc]
      rfl

theorem ite {v' : Visitor ν} (h : ∃ A, v.Begun t handle steps A)
    (h' : ∃ A, v'.Begun t handle (steps ++ extra) A) (condition : Bool) :
    ∃ A, Begun t handle (steps ++ if condition then extra else [])
      (if condition then v' else v) A := by
  cases condition with
  | true => exact h'
  | false =>
    rw [if_neg Bool.false_ne_true, List.append_nil]
    exact h

end Begun

/-- The pass has opened the scopes of the program when it comes to the body. -/
theorem exists_begun (hroot : t.isProgram t.root) (o : LanguageOptions)
    (sourceType : SourceType) (isModule : Bool) :
    ∃ A, Begun t handle (t.enterProgram o sourceType)
      (enterProgram t handle o sourceType { isModule }) A := by
  rw [enterProgram_eq rfl]
  have hglobal (strict : Bool) : Begun t handle [.enter .global t.root strict]
      (Visitor.nest .global t.root strict { isModule }) _ := .root hroot strict isModule
  have houter (strict strict' : Bool) := Begun.ite ⟨_, hglobal strict⟩
    (((hglobal strict).nestFunction strict' false).imp' _ fun _ h => h)
    (o.globalReturnFor sourceType)
  have hinner (strict strict' : Bool) := Begun.ite (houter strict strict')
    ((houter strict strict').elim fun A h => (h.nest .module true).imp' _ fun _ h => h)
    (o.isModuleFor sourceType)
  exact hinner _ _

/-- How the pass ends: nothing is open, every scope has been closed once, and no reference waits
anywhere. -/
structure Ended (v : Visitor ν) : Prop where
  current_eq : v.current = none
  nodup_closed : v.closed.Nodup
  mem_closed_iff : ∀ s : ScopeId, s ∈ v.closed ↔ s.index < v.graph.scopes.size
  pendingOf_eq : ∀ s, v.graph.pendingOf s = []

/-- With all scopes closed the pass is at its end. -/
theorem Begun.ended {v' : Visitor ν} (h : v.Begun t handle steps A) (hmoves : v.Moves t v')
    (hnil : v'.opened = []) : v'.Ended := by
  have hstart (s : ScopeId) : s ∈ v.opened ∨ v.graph.scopes.size ≤ s.index :=
    (Nat.lt_or_ge s.index v.graph.scopes.size).imp_left (h.all_open s)
  have hnone (s : ScopeId) : s ∉ v'.opened := hnil ▸ List.not_mem_nil
  obtain ⟨gone, hclosed, hnodup, hgone⟩ := hmoves.closed
  rw [h.closed_eq, List.append_nil] at hclosed
  have hle := hmoves.size_le
  exact {
    current_eq := by rw [← hmoves.sound'.head?_opened, hnil, List.head?_nil]
    nodup_closed := hclosed ▸ hnodup
    mem_closed_iff := fun s => by
      rw [hclosed, hgone]
      constructor
      · rintro ⟨hs | ⟨-, hlt⟩, -⟩
        · exact Nat.lt_of_lt_of_le (hmoves.sound.lt_of_mem_opened hs) hle
        · exact hlt
      · exact fun hlt => ⟨(hstart s).imp_right fun hge => ⟨hge, hlt⟩, hnone s⟩
    pendingOf_eq := fun s => hmoves.emptied s (hstart s) (hnone s) }

section Program

variable {o : LanguageOptions} {outline : Outline}

theorem context_enterProgram (sourceType : SourceType) (isModule : Bool) :
    (enterProgram t handle o sourceType { isModule }).context = { isModule } := by
  rw [enterProgram_eq rfl]
  cases o.globalReturnFor sourceType <;> cases o.isModuleFor sourceType <;> rfl

omit [DecidableEq ν] in
theorem misplacedImport?_enterProgram (sourceType : SourceType) :
    (t.enterProgram o sourceType).findSome? Step.misplacedImport? = none := by
  unfold Tree.enterProgram
  cases o.globalReturnFor sourceType <;> cases o.isModuleFor sourceType <;> rfl

/-- The whole pass takes the steps of the whole outline. -/
theorem agrees_visitProgram (h : t.outline? o = some outline) :
    Agrees t handle ({} : Visitor ν) outline Ended (visitProgram t handle o) := by
  obtain ⟨body, sourceType, hrootKind, rfl⟩ := Tree.exists_program_of_outline? h
  have hkind := Tree.kind?_root_of_program hrootKind
  have hroot : t.isProgram t.root := by rw [Tree.isProgram, hkind]; rfl
  rw [visitProgram, hrootKind]
  dsimp only
  generalize hv : enterProgram t handle o sourceType
    { isModule := o.isModuleFor sourceType } = v
  have hbegun : ∃ A, Begun t handle (t.enterProgram o sourceType) v A :=
    hv ▸ exists_begun hroot o sourceType (o.isModuleFor sourceType)
  obtain ⟨A, hbegun⟩ := hbegun
  have hcontext : v.context = { isModule := o.isModuleFor sourceType } :=
    hv ▸ context_enterProgram sourceType _
  have hbody : Inside t handle v A (each body (visit t handle))
      (body.flatMap (t.steps v.context)) := by
    refine inside_each (n := t.root) (fun m _ w B hw hB => agrees_visit hw hB)
      (fun p hp _ => hbegun.at_root p hp) fun m hm => .child (Tree.mem_childrenOf hkind hm)
  have hclose : Takes t handle (Stands t v A) (lift (close t t.root)) [.leave t.root]
      Ended := by
    refine Takes.lift rfl fun w hw => ⟨?_, cursor_close hw.2.sound⟩
    refine hbegun.ended (hw.1.trans (.close hw.2.sound)) ?_
    have hall : A.dropWhile (·.2 = t.root) = [] :=
      List.dropWhile_eq_nil_iff.2 fun p hp => decide_eq_true (hbegun.at_root p hp)
    rw [hw.2.opened_close, hall, List.map_nil]
  have hopen : Agrees t handle {} (t.enterProgram o sourceType) (Stands t v A) (.ok v) :=
    ⟨misplacedImport?_enterProgram sourceType, hbegun.cursor_eq, hbegun.holds.stands⟩
  rw [List.append_assoc, ← hcontext]
  exact hopen.bind (Takes.seq hbody hclose)

/-- The pass refuses what has no outline. -/
theorem visitProgram_of_none (h : t.outline? o = none) : visitProgram t handle o =
    .error (.rootNotProgram t.root t.rootKind.typeName) := by
  unfold Tree.outline? at h
  unfold visitProgram
  cases hroot : t.rootKind with
  | program body sourceType =>
    rw [hroot] at h
    cases h
  | _ => rfl

/-- A pass that succeeds has ended. -/
theorem ended_visitProgram (h : visitProgram t handle o = .ok v) : v.Ended := by
  cases houtline : t.outline? o with
  | none =>
    rw [visitProgram_of_none houtline] at h
    cases h
  | some outline =>
    have hagrees : Agrees t handle {} outline Ended (visitProgram t handle o) :=
      agrees_visitProgram houtline
    rw [h] at hagrees
    exact hagrees.2.2

/-- Analysis is the pass, with the settings of the file applied to the graph that it builds. -/
theorem eq_visitProgram_of_analyze {names names' : NameTable} {envs : Environments}
    {result : Except ScopeError (ScopeGraph Name)} (h : analyze names t o envs = (names', result)) :
    result = (visitProgram t names'.handle o).map fun v =>
      v.graph.finalize ((GlobalSettings.ofFile o envs t.comments).mapNames names'.handle) := by
  unfold analyze at h
  cases houtline : t.outline? o with
  | none =>
    rw [houtline, Prod.mk.injEq] at h
    rw [visitProgram_of_none houtline, ← h.2]
    rfl
  | some outline =>
    have hagrees : Agrees t names'.handle {} outline Ended (visitProgram t names'.handle o) :=
      agrees_visitProgram houtline
    rw [houtline] at h
    dsimp only at h
    cases hvisited : visitProgram t names'.handle o with
    | error e =>
      rw [hvisited] at hagrees
      obtain ⟨d, hd, rfl⟩ := hagrees
      rw [hd, Prod.mk.injEq] at h
      exact h.2.symm
    | ok v =>
      rw [hvisited] at hagrees
      obtain ⟨hnone, hcursor, -⟩ := hagrees
      rw [hnone, Prod.mk.injEq] at h
      obtain ⟨rfl, rfl⟩ := h
      have hgraph := congrArg Cursor.graph hcursor
      rw [Except.map, show v.graph = _ from hgraph]
      rfl

end Program

end Visitor

end LexicalScope
