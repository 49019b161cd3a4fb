import LexicalScope.Proofs.Analyzed
import LexicalScope.Proofs.RoleTrace
import LexicalScope.Proofs.Stable
import LexicalScope.Proofs.Visits

/-!
Where references come from. Every reference stems from one step of the walk, and every step from
one node in its role. In a tree with one place for each node a node is visited once, so the
references at an identifier are those of its visit.
-/
namespace LexicalScope

/-- Only one element of a list contributes. -/
theorem flatMap_eq_of_nodup {α β : Type} {l : List α} {f : α → List β} {x : α}
    (hl : l.Nodup) (hx : x ∈ l) (h : ∀ y ∈ l, y ≠ x → f y = []) : l.flatMap f = f x := by
  obtain ⟨before, after, rfl⟩ := List.append_of_mem hx
  rw [List.nodup_middle, List.nodup_cons, List.mem_append, not_or] at hl
  have hbefore : before.flatMap f = [] := List.flatMap_eq_nil_iff.2 fun y hy =>
    h y (List.mem_append_left _ hy) fun heq => hl.1.1 (heq ▸ hy)
  have hafter : after.flatMap f = [] := List.flatMap_eq_nil_iff.2 fun y hy =>
    h y (List.mem_append_right _ (List.mem_cons_of_mem _ hy)) fun heq => hl.1.2 (heq ▸ hy)
  rw [List.flatMap_append, List.flatMap_cons, hbefore, hafter, List.nil_append, List.append_nil]

variable {ν : Type}

def Step.occurrence? : Step ν → Option (NodeId × Access)
  | refer o => some (o.identifier, o.access)
  | _ => none

theorem Step.occurrence?_mapName {μ : Type} (f : ν → μ) (step : Step ν) :
    (step.mapName f).occurrence? = step.occurrence? := by
  cases step <;> rfl

def Located.occurrences (trace : List (Located ν)) : List (NodeId × Access) :=
  trace.filterMap (·.step.occurrence?)

theorem Located.occurrences_append (trace trace' : List (Located ν)) :
    occurrences (trace ++ trace') = occurrences trace ++ occurrences trace' :=
  List.filterMap_append

theorem Located.occurrences_mapName {μ : Type} (f : ν → μ) (trace : List (Located ν)) :
    occurrences (trace.map (.mapName f)) = occurrences trace := by
  rw [occurrences, List.filterMap_map]
  congr 1
  exact funext fun l => l.step.occurrence?_mapName f

namespace ScopeGraph

def occurrences (g : ScopeGraph ν) : List (NodeId × Access) :=
  g.references.toList.map fun r => (r.identifier, r.access)

/-- The accesses of the references at a node. -/
def accessesAt (g : ScopeGraph ν) (n : NodeId) : List Access :=
  (g.references.toList.filter (·.identifier = n)).map (·.access)

theorem accessesAt_eq (g : ScopeGraph ν) (n : NodeId) :
    g.accessesAt n = (g.occurrences.filter (·.1 = n)).map (·.2) := by
  rw [accessesAt, occurrences, List.filter_map, List.map_map]
  rfl

theorem occurrences_modifyReference {f : Reference ν → Reference ν}
    (hf : ∀ x, (f x).unlinked = x.unlinked) (g : ScopeGraph ν) (r : ReferenceId) :
    (g.modifyReference r f).occurrences = g.occurrences := by
  have hkeeps (x : Reference ν) : ((f x).identifier, (f x).access) = (x.identifier, x.access) := by
    have hx := congrArg (fun y : Reference ν => (y.identifier, y.access)) (hf x)
    exact hx
  rw [occurrences, occurrences, modifyReference, Array.toList_modify]
  apply List.ext_getElem?
  intro i
  rw [List.getElem?_map, List.getElem?_map, List.getElem?_modify]
  split <;> cases g.references.toList[i]? <;> simp [hkeeps]

variable [DecidableEq ν]

/-- The closing of scopes and the settings make no references. -/
theorem stable_occurrences (l : List (NodeId × Access)) :
    Stable fun g : ScopeGraph ν => g.occurrences = l where
  modifyScope _ _ _ h := h
  modifyReference hf h := (occurrences_modifyReference hf _ _).trans h
  modifyVariable _ h := h
  bindGlobal {g name} h := by
    rw [← h]
    unfold bind
    split <;> rfl
  declareImplicit {g _ reference _ d} _ _ _ _ h := by
    rw [← h]
    unfold declareImplicit bindImplicit
    cases g.implicit.table.get? reference.name <;> rfl
  setImplicit _ _ h := h

theorem occurrences_declare (g : ScopeGraph ν) (s : ScopeId) (name : ν) (d : Option Definition) :
    (g.declare s name d).occurrences = g.occurrences := by
  have hbind : (g.bind s name).1.occurrences = g.occurrences := by
    unfold bind
    split <;> rfl
  cases d <;> exact hbind

/-- The references record the referring steps of a walk. -/
theorem walkInvariant_occurrences (t : Tree) :
    WalkInvariant t fun (trace : List (Located ν)) c =>
      c.graph.occurrences = Located.occurrences trace where
  enter {_ c _ _} h hc _ _ _ := by
    rw [Cursor.enter, h.head?_opened, Located.occurrences_append, ← hc]
    exact (List.append_nil _).symm
  close _ hc _ := (stable_occurrences _).closeScope t _ hc
  declare _ hc _ _ _ := by
    rw [occurrences_declare, hc, Located.occurrences_append]
    exact (List.append_nil _).symm
  refer {_ c _} _ hc o := by
    rw [Located.occurrences_append, ← hc, occurrences, occurrences, addReference]
    simp [Located.occurrences, Step.occurrence?, Cursor.reference]
  this _ hc := by
    rw [Located.occurrences_append, ← hc]
    exact (List.append_nil _).symm
  misplacedImport _ hc _ := by
    rw [Located.occurrences_append, ← hc]
    exact (List.append_nil _).symm

end ScopeGraph

namespace Step

def occurrences (steps : List (Step ν)) : List (NodeId × Access) :=
  steps.filterMap occurrence?

@[simp] theorem occurrences_append (steps steps' : List (Step ν)) :
    occurrences (steps ++ steps') = occurrences steps ++ occurrences steps' :=
  List.filterMap_append

@[simp] theorem occurrences_nil : occurrences ([] : List (Step ν)) = [] :=
  rfl

@[simp] theorem occurrences_enter (kind : ScopeKind) (block : NodeId) (strict : Bool)
    (steps : List (Step ν)) : occurrences (enter kind block strict :: steps) = occurrences steps :=
  rfl

theorem occurrences_trace (blocks : List NodeId) (steps : List (Step ν)) :
    Located.occurrences (trace blocks steps) = occurrences steps := by
  induction steps generalizing blocks with
  | nil => rfl
  | cons step steps ih =>
    rw [trace, Located.occurrences_append, ih]
    cases step <;> rfl

end Step

/-- How often a pattern writes a target that has no defaults around it. -/
def PatternUse.writes : PatternUse → Nat
  | parameter .. | catchParameter _ => 0
  | declarator _ _ _ _ init right => init.toList.length + right.toList.length
  | assignment .. => 1

def Role.accesses : Role → List Access
  | program _ | skipped | declarator .. => []
  | visited _ | fieldValue _ | functionBody _ | loopHead .. => [.read]
  | updated _ => [.readWrite]
  | target _ use _ s => List.replicate (s.defaults.length + use.writes) .write

section Occurrences

open Step (occurrences)

variable {t : Tree} {n : NodeId} {v : Visit}

theorem occurrences_flatMap_eq_nil {α : Type} {l : List α} {f : α → Outline}
    (h : ∀ x, occurrences (f x) = []) : occurrences (l.flatMap f) = [] := by
  rw [occurrences, List.filterMap_flatMap]
  exact List.flatMap_eq_nil_iff.2 fun x _ => h x

@[simp] theorem occurrences_declareAt (place : Place) (id : NodeId) (d : Definition) :
    occurrences (t.declareAt place id d) = [] := by
  unfold Tree.declareAt
  cases t.identifierName? id <;> rfl

@[simp] theorem occurrences_enterFunction (strict isArrow : Bool) :
    occurrences (Tree.enterFunction n strict isArrow) = [] := by
  cases isArrow <;> rfl

@[simp] theorem occurrences_functionNameSteps (kind : NodeKind) :
    occurrences (t.functionNameSteps n kind) = [] := by
  unfold Tree.functionNameSteps
  split
  · exact occurrences_declareAt ..
  · exact occurrences_declareAt ..
  · rfl

@[simp] theorem occurrences_importSteps (specifiers : List NodeId) (kind : ImportKind) :
    occurrences (t.importSteps n specifiers kind) = [] := by
  apply occurrences_flatMap_eq_nil
  intro specifier
  split
  · exact occurrences_declareAt ..
  · rfl

theorem occurrences_enterProgram (o : LanguageOptions) (sourceType : SourceType) :
    occurrences (t.enterProgram o sourceType) = [] := by
  unfold Tree.enterProgram
  dsimp only
  rw [Step.occurrences_enter, Step.occurrences_append]
  split <;> split <;> simp

theorem occurrences_classLayout (c : Context) (isDeclaration : Bool) (parts : Class) :
    occurrences (t.classLayout c n isDeclaration parts).own = [] := by
  have hnamed : occurrences (parts.id.toList.flatMap fun id =>
      t.declareAt .current id { kind := .className, name := id, node := n }) = [] :=
    occurrences_flatMap_eq_nil fun _ => occurrences_declareAt ..
  cases isDeclaration <;> simp [Tree.classLayout, hnamed]

theorem occurrences_enterLexically (head : Option NodeId) :
    occurrences (if t.declaresLexically head then [.enter .forLoop n false] else [] : Outline) =
      [] := by
  split <;> rfl

/-- Of the nodes that are visited, only identifiers are references of their own. -/
theorem occurrences_visitedLayout (c : Context) (kind : NodeKind) :
    occurrences (t.visitedLayout c n kind).own =
      if kind.isIdentifier then [(n, .read)] else [] := by
  cases kind with
  | functionDeclaration f | functionExpression f | arrowFunctionExpression f =>
    simp [Tree.visitedLayout, Tree.functionLayout, NodeKind.isIdentifier]
  | classDeclaration parts | classExpression parts => exact occurrences_classLayout ..
  | importDeclaration specifiers source kind =>
    cases hmodule : c.isModule
    · simp [Tree.visitedLayout, NodeKind.isIdentifier, hmodule, occurrences, Step.occurrence?]
    · simp [Tree.visitedLayout, NodeKind.isIdentifier, hmodule]
  | exportNamedDeclaration declaration specifiers source =>
    cases source <;> cases declaration <;> rfl
  | forStatement | forInStatement | forOfStatement => exact occurrences_enterLexically ..
  | _ => rfl

theorem occurrences_map {α : Type} {l : List α} {f : α → Step String} {e : NodeId × Access}
    (h : ∀ x, (f x).occurrence? = some e) :
    occurrences (l.map f) = List.replicate l.length e := by
  induction l with
  | nil => rfl
  | cons x l ih =>
    rw [List.map_cons, occurrences, List.filterMap_cons_some (h x), List.length_cons,
      List.replicate_succ]
    exact congrArg _ ih

/-- A target is written once for each default around it, and once more by the pattern. -/
theorem occurrences_useSteps (use : PatternUse) (x : PatternTarget) :
    occurrences (use.steps x) =
      List.replicate (x.defaults.length + use.writes) (x.identifier, .write) := by
  have hwrites {α : Type} (l : List α) (expr : α → NodeId) (whole : α → Bool) (init : Bool)
      (assignment : Option NodeId) :
      occurrences (l.map fun d => x.write (expr d) (whole d) init assignment) =
        List.replicate l.length (x.identifier, .write) :=
    occurrences_map fun _ => rfl
  have hdeclare (place : Place) (d : Definition) :
      occurrences (x.declare place d) = List.replicate x.defaults.length (x.identifier, .write) :=
    hwrites x.defaults _ _ true none
  cases use with
  | parameter | catchParameter => exact hdeclare ..
  | declarator declaration node kind index init right =>
    rw [PatternUse.steps, Step.occurrences_append, Step.occurrences_append, hdeclare,
      hwrites init.toList (fun e => e), hwrites right.toList (fun e => e),
      List.replicate_append_replicate, List.replicate_append_replicate, Nat.add_assoc]
    rfl
  | assignment node right whole =>
    rw [PatternUse.steps, Step.occurrences_append]
    refine (congrArg (· ++ _) (hwrites x.defaults _ _ false (some node))).trans ?_
    exact (List.replicate_append_replicate (m := 1)).symm ▸ rfl

theorem occurrences_updateAt {kind : NodeKind} (hkind : t.kind? n = some kind)
    (writeExpr : Option NodeId) :
    occurrences (t.updateAt n writeExpr) =
      if kind.isIdentifier then [(n, .readWrite)] else [] := by
  cases kind <;>
    simp [Tree.updateAt, Tree.identifierName?, hkind, NodeKind.identifierName?,
      NodeKind.isIdentifier, occurrences, Step.occurrence?]

theorem occurrences_targetLayout (c : Context) (use : PatternUse) (root : NodeId)
    (s : Pattern.Surroundings) (kind : NodeKind) :
    occurrences (Tree.targetLayout c use root s n kind).own =
      if kind.isIdentifier then
        List.replicate (s.defaults.length + use.writes) (n, .write)
      else [] := by
  cases kind with
  | identifier name => exact occurrences_useSteps ..
  | _ => rfl

end Occurrences

namespace Tree

variable {t : Tree} {v : Visit}

def occurrencesAt (t : Tree) (v : Visit) : List (NodeId × Access) :=
  Located.occurrences (t.marks v)

/-- Only identifiers are referred to, and their roles say how. -/
theorem occurrencesAt_eq {kind : NodeKind} (hkind : t.kind? v.node = some kind) :
    t.occurrencesAt v = if kind.isIdentifier then v.role.accesses.map (v.node, ·) else [] := by
  have hfirst : Step.occurrences (t.layout v.role v.node).first = [] := by
    rw [layout_of_kind? hkind, first_layoutOfKind]
    split <;> rfl
  rw [occurrencesAt, marks, Located.occurrences_append, Step.occurrences_trace,
    Step.occurrences_trace, hfirst, List.nil_append, layout_of_kind? hkind]
  obtain ⟨n, role, blocks⟩ := v
  cases role with
  | program o =>
    cases kind with
    | program body sourceType => exact occurrences_enterProgram o sourceType
    | _ => simp [layoutOfKind, Role.accesses]
  | skipped => simp [layoutOfKind, Role.accesses]
  | visited c | fieldValue c => exact occurrences_visitedLayout c kind
  | functionBody c =>
    cases kind with
    | blockStatement statements => rfl
    | _ => exact occurrences_visitedLayout c _
  | updated writeExpr => exact occurrences_updateAt hkind writeExpr
  | target c use root s =>
    rw [Role.accesses, List.map_replicate]
    exact occurrences_targetLayout c use root s kind
  | declarator c declaration variableKind index right =>
    cases kind <;> simp [layoutOfKind, Role.accesses]
  | loopHead c right =>
    cases kind with
    | variableDeclaration kind declarations => rfl
    | _ => exact occurrences_visitedLayout c _

end Tree

/-- The references of an analysed file are those of all visited nodes. -/
theorem perm_occurrences {names names' : NameTable} {t : Tree} {o : LanguageOptions}
    {envs : Environments} {g : ScopeGraph Name} (h : analyze names t o envs = (names', .ok g)) :
    g.occurrences.Perm ((t.visits (t.rootVisit o)).flatMap t.occurrencesAt) := by
  obtain ⟨outline, source, houtline, -, -, hsource, rfl⟩ :=
    (ScopeGraph.walkInvariant_occurrences (ν := Name) t).of_analyze (fun _ => rfl) h
  have hfinal := (ScopeGraph.stable_occurrences source.occurrences).conclude t
    ((GlobalSettings.ofFile o envs t.comments).mapNames names'.handle) rfl
  rw [hfinal, hsource, Located.occurrences_mapName]
  refine ((perm_trace_outline houtline).filterMap _).trans (.of_eq ?_)
  rw [Tree.marksFrom, List.filterMap_flatMap]
  rfl

/-- The references at a node are those of its visit. -/
theorem perm_accessesAt {names names' : NameTable} {t : Tree} {o : LanguageOptions}
    {envs : Environments} {g : ScopeGraph Name} (h : analyze names t o envs = (names', .ok g))
    (hplaces : t.UniquePlaces) {v : Visit} (hv : v ∈ t.visits (t.rootVisit o)) {name : String}
    (hkind : t.kind? v.node = some (.identifier name)) :
    (g.accessesAt v.node).Perm v.role.accesses := by
  have hother (w : Visit) (hw : w ∈ t.visits (t.rootVisit o)) (hne : w ≠ v) :
      (t.occurrencesAt w).filter (·.1 = v.node) = [] := by
    have hle := Tree.index_le_of_below (Tree.below_of_mem_visits hw)
    obtain ⟨kind, hkind⟩ := t.exists_kind?_of_lt (Nat.lt_of_le_of_lt hle t.root_lt)
    rw [List.filter_eq_nil_iff]
    intro e he hnode
    have hfst : e.1 = w.node := by
      rw [Tree.occurrencesAt_eq hkind] at he
      split at he
      · obtain ⟨access, -, rfl⟩ := List.mem_map.1 he
        rfl
      · cases he
    exact hne (Tree.eq_of_mem_visits hplaces hw hv (hfst.symm.trans (of_decide_eq_true hnode)))
  have hself : (t.occurrencesAt v).filter (·.1 = v.node) = v.role.accesses.map (v.node, ·) := by
    rw [Tree.occurrencesAt_eq hkind, NodeKind.isIdentifier, if_pos rfl, List.filter_eq_self]
    intro e he
    obtain ⟨access, -, rfl⟩ := List.mem_map.1 he
    exact decide_eq_true rfl
  have hperm := ((perm_occurrences h).filter (·.1 = v.node)).map (·.2)
  rw [List.filter_flatMap, flatMap_eq_of_nodup (List.Nodup.of_map _
    (Tree.nodup_visits hplaces _)) hv hother, hself, List.map_map] at hperm
  rw [ScopeGraph.accessesAt_eq]
  refine hperm.trans (.of_eq ?_)
  exact List.map_id' _

end LexicalScope
