import LexicalScope.Proofs.Entered

/-!
What the visited nodes declare. A function declaration or an import declares its names where it
stands, a class declaration also in the scope of the class, and a function expression in the scope
of its own name. A target in a pattern is declared where the owner of the pattern has its children.
-/
namespace LexicalScope

namespace Step

variable {ν : Type}

/-- Among steps with `blocks` around them, what all declarations of definitions satisfy. -/
def Declare (P : List NodeId → Place → Definition → Prop) (blocks : List NodeId)
    (steps : List (Step ν)) : Prop :=
  ∀ b place name d, ⟨b, .declare place name (some d)⟩ ∈ trace blocks steps → P b place d

namespace Declare

variable {P : List NodeId → Place → Definition → Prop} {blocks : List NodeId} {n : NodeId}
  {steps steps' : List (Step ν)}

theorem append {kinds : List ScopeKind} (hopens : OpensAt n steps kinds)
    (h : Declare P blocks steps)
    (h' : Declare P (List.replicate kinds.length n ++ blocks) steps') :
    Declare P blocks (steps ++ steps') := by
  intro b place name d hmem
  rw [trace_append, hopens.foldl_blocksAfter] at hmem
  exact (List.mem_append.1 hmem).elim (h b place name d) (h' b place name d)

theorem nil : Declare P blocks ([] : List (Step ν)) :=
  fun _ _ _ _ h => nomatch h

/-- Steps that declare nothing, or names without a definition. -/
theorem of_none (h : ∀ step ∈ steps, ∀ place name d, step ≠ .declare place name (some d)) :
    Declare P blocks steps := by
  intro b place name d hmem
  induction steps generalizing blocks with
  | nil => cases hmem
  | cons step steps ih =>
    rw [trace] at hmem
    rcases List.mem_append.1 hmem with hmem | hmem
    · have hstep := h step (List.mem_cons_self ..) place name d
      cases step with
      | leave => cases hmem
      | _ => exact absurd (congrArg Located.step (List.mem_singleton.1 hmem)).symm hstep
    · exact ih (fun x hx => h x (List.mem_cons_of_mem _ hx)) hmem

theorem enter (kind : ScopeKind) (n : NodeId) (strict : Bool) :
    Declare P blocks [(.enter kind n strict : Step ν)] :=
  of_none fun _ hstep _ _ _ heq => by
    rw [List.mem_singleton.1 hstep] at heq
    cases heq

theorem ite {p : Prop} [Decidable p] (h : Declare P blocks steps) :
    Declare P blocks (if p then steps else []) := by
  split
  · exact h
  · exact nil

theorem flatMap {α : Type} {l : List α} {f : α → List (Step ν)}
    (hopens : ∀ x ∈ l, OpensAt n (f x) []) (h : ∀ x ∈ l, Declare P blocks (f x)) :
    Declare P blocks (l.flatMap f) := by
  induction l with
  | nil => exact nil
  | cons x l ih =>
    exact append (hopens x (List.mem_cons_self ..)) (h x (List.mem_cons_self ..))
      (ih (fun y hy => hopens y (List.mem_cons_of_mem _ hy))
        fun y hy => h y (List.mem_cons_of_mem _ hy))

/-- Still steps have the same blocks around all of them. -/
theorem of_isStill {steps : Outline} (hstill : ∀ step ∈ steps, step.IsStill)
    (h : ∀ place name d, .declare place name (some d) ∈ steps → P blocks place d) :
    Declare P blocks steps := by
  intro b place name d hmem
  rw [trace_of_isStill hstill] at hmem
  obtain ⟨step, hstep, heq⟩ := List.mem_map.1 hmem
  obtain ⟨rfl, rfl⟩ := Located.mk.inj heq
  exact h place name d hstep

end Declare

end Step

def PatternUse.declaration? (x : PatternTarget) : PatternUse → Option (Place × Definition)
  | parameter function index => some (.current, .ofParameter x.identifier function index x.rest)
  | catchParameter clause =>
    some (.current, { kind := .catchClause, name := x.identifier, node := clause })
  | declarator declaration node kind index .. =>
    some (if kind = .varDecl then .variableScope else .current,
      .ofDeclarator x.identifier node declaration index kind)
  | assignment .. => none

theorem PatternTarget.eq_of_mem_declare {x : PatternTarget} {place place' : Place} {name : String}
    {d d' : Definition} (h : .declare place' name (some d') ∈ x.declare place d) :
    (place, d) = (place', d') := by
  rcases List.mem_cons.1 h with heq | h
  · obtain ⟨rfl, -, heq⟩ := Step.declare.inj heq
    rw [Option.some.inj heq]
  · obtain ⟨e, -, heq⟩ := List.mem_map.1 h
    cases heq

/-- What a target declares, it declares by its use. -/
theorem PatternUse.declaration?_of_mem_steps {use : PatternUse} {x : PatternTarget} {place : Place}
    {name : String} {d : Definition} (h : .declare place name (some d) ∈ use.steps x) :
    use.declaration? x = some (place, d) := by
  cases use with
  | parameter | catchParameter => exact congrArg some (PatternTarget.eq_of_mem_declare h)
  | declarator declaration node kind index init right =>
    rcases List.mem_append.1 h with h | h
    · rcases List.mem_append.1 h with h | h
      · exact congrArg some (PatternTarget.eq_of_mem_declare h)
      · obtain ⟨e, -, heq⟩ := List.mem_map.1 h
        cases heq
    · obtain ⟨e, -, heq⟩ := List.mem_map.1 h
      cases heq
  | assignment node right whole =>
    rcases List.mem_append.1 h with h | h
    · obtain ⟨e, -, heq⟩ := List.mem_map.1 h
      cases heq
    · cases List.mem_singleton.1 h

namespace Tree

variable {t : Tree} {o : LanguageOptions} {v : Visit}

/-- A visited node declares `d` with `blocks` around the declaration. -/
inductive Declares (t : Tree) (v : Visit) : List NodeId → Place → Definition → Prop
  | function {f : Function} {id : NodeId}
      (hkind : t.kind? v.node = some (.functionDeclaration f)) :
      Declares t v (t.outside v) .current { kind := .functionName, name := id, node := v.node }
  | functionExpression {f : Function} {id : NodeId}
      (hkind : t.kind? v.node = some (.functionExpression f))
      (hregion : ⟨.functionName, v.node :: t.outside v⟩ ∈ t.regionsAt v) :
      Declares t v (v.node :: t.outside v) .current
        { kind := .functionName, name := id, node := v.node }
  | classAround {parts : Class} {id : NodeId}
      (hkind : t.kind? v.node = some (.classDeclaration parts)) :
      Declares t v (t.outside v) .current { kind := .className, name := id, node := v.node }
  | classInside {id : NodeId} (hregion : ⟨.classBody, v.node :: t.outside v⟩ ∈ t.regionsAt v) :
      Declares t v (v.node :: t.outside v) .current
        { kind := .className, name := id, node := v.node }
  | import {specifiers : List NodeId} {source : NodeId} {importKind : ImportKind} {d : Definition}
      (hkind : t.kind? v.node = some (.importDeclaration specifiers source importKind))
      (hmodule : ∀ c, v.role = .visited c → c.isModule) (hdefinition : d.kind = .importBinding) :
      Declares t v (t.outside v) .current d
  | target {c : Context} {use : PatternUse} {root : NodeId} {s : Pattern.Surroundings}
      {x : PatternTarget} {place : Place} {d : Definition} (hrole : v.role = .target c use root s)
      (hdeclaration : use.declaration? x = some (place, d)) : Declares t v v.blocks place d

section Steps

variable {n : NodeId} {P : List NodeId → Place → Definition → Prop} {blocks : List NodeId}

theorem declare_declareAt (t : Tree) (place : Place) (id : NodeId) {d : Definition}
    (h : P blocks place d) : Step.Declare P blocks (t.declareAt place id d) := by
  unfold declareAt
  cases t.identifierName? id with
  | none => exact Step.Declare.nil
  | some name =>
    intro b place' name' d' hmem
    obtain ⟨rfl, heq⟩ := Located.mk.inj (List.mem_singleton.1 hmem)
    obtain ⟨rfl, -, heq⟩ := Step.declare.inj heq
    obtain rfl := Option.some.inj heq
    exact h

theorem declare_enterFunction (n : NodeId) (strict isArrow : Bool) :
    Step.Declare P blocks (enterFunction n strict isArrow) := by
  refine .of_none fun step hstep place name d heq => ?_
  rcases List.mem_cons.1 hstep with rfl | hstep
  · cases heq
  · cases isArrow with
    | true => cases hstep
    | false =>
      rw [List.mem_singleton.1 hstep] at heq
      cases heq

theorem declare_enterProgram (t : Tree) (o : LanguageOptions) (sourceType : SourceType) :
    Step.Declare P blocks (t.enterProgram o sourceType) := by
  have hmodule {blocks : List NodeId} : Step.Declare P blocks
      (if o.isModuleFor sourceType then [.enter .module t.root true] else [] : Outline) :=
    (Step.Declare.enter .module t.root true).ite
  refine .append (.enter t.root .global _) (.enter .global t.root _) ?_
  exact .append (opensAt_enterFunction t.root _ false).ite
    (declare_enterFunction t.root _ false).ite hmodule

end Steps

section Own

variable (v)

/-- A target declares what its use says, in the scope that it stands in. -/
theorem declare_target {c : Context} {use : PatternUse} {root : NodeId}
    {s : Pattern.Surroundings} (hrole : v.role = .target c use root s) (kind : NodeKind) :
    Step.Declare (t.Declares v) v.blocks (targetLayout c use root s v.node kind).own := by
  have hsteps (x : PatternTarget) : Step.Declare (t.Declares v) v.blocks (use.steps x) := by
    refine .of_isStill (use.isStill_steps x) fun place name d hmem => ?_
    exact .target hrole (PatternUse.declaration?_of_mem_steps hmem)
  cases kind with
  | identifier name => exact hsteps _
  | _ => exact Step.Declare.nil

variable {v} {kind : NodeKind} (hkind : t.kind? v.node = some kind)
include hkind

/-- An import declares its bindings as long as it stands in a module. -/
theorem declare_importSteps {specifiers : List NodeId} {source : NodeId} {importKind : ImportKind}
    (himport : kind = .importDeclaration specifiers source importKind)
    (hmodule : ∀ c, v.role = .visited c → c.isModule) :
    Step.Declare (t.Declares v) (t.outside v) (t.importSteps v.node specifiers importKind) := by
  subst himport
  refine .flatMap (n := v.node) (fun specifier _ => ?_) fun specifier _ => ?_
  · split
    · exact t.opensAt_declareAt v.node _ _ _
    · exact .nil _
  · split
    · exact t.declare_declareAt _ _ (.import hkind hmodule rfl)
    · exact Step.Declare.nil

variable (hv : v ∈ t.visits (t.rootVisit o))
include hv

/-- The outermost of the scopes that a node opens behind its early children. -/
theorem mem_regionsAt_of_own {k : ScopeKind} {ks : List ScopeKind}
    (hown : t.ownScopes kind v.role = k :: ks) :
    ⟨k, v.node :: t.outside v⟩ ∈ t.regionsAt v := by
  rw [regionsAt_eq hv, openedAt_eq hkind, regionsFrom_append, ← outside_eq hkind, hown]
  exact List.mem_append_right _ (List.mem_cons_self ..)

variable (hown : t.ownScopes kind v.role = t.scopesOfKind kind)
include hown

/-- A function declares its name inside its scope, or as a statement around it. -/
theorem declare_functionLayout (c : Context) (id : Option NodeId) (params : List NodeId)
    (body : Option NodeId) :
    Step.Declare (t.Declares v) (t.outside v)
      (t.functionLayout c v.node kind id params body).own := by
  have henter {blocks : List NodeId} (isArrow : Bool) : Step.Declare (t.Declares v) blocks
      (enterFunction v.node (c.inMethod || t.isStrictFunction kind) isArrow) :=
    declare_enterFunction v.node _ isArrow
  cases kind with
  | functionDeclaration f =>
    obtain ⟨id, _, _, _, _⟩ := f
    cases id with
    | none => exact henter _
    | some id =>
      exact .append (t.opensAt_declareAt v.node _ _ _)
        (t.declare_declareAt _ _ (.function hkind)) (henter _)
  | functionExpression f =>
    obtain ⟨id, _, _, _, _⟩ := f
    cases id with
    | none => exact henter _
    | some id =>
      have hregion := mem_regionsAt_of_own hkind hv hown
      refine .append ((Step.OpensAt.enter v.node .functionName false).append
        (t.opensAt_declareAt v.node _ _ _)) ?_ (henter _)
      exact .append (.enter v.node .functionName false) (.enter .functionName v.node false)
        (t.declare_declareAt _ _ (.functionExpression hkind hregion))
  | _ => exact henter _

/-- A class declares its name inside its scope, as a statement also around it. -/
theorem declare_classLayout {parts : Class} (c : Context) (isDeclaration : Bool)
    (hdeclaration : isDeclaration → kind = .classDeclaration parts)
    (hscopes : t.scopesOfKind kind = [.classBody]) :
    Step.Declare (t.Declares v) (t.outside v) (t.classLayout c v.node isDeclaration parts).own := by
  have hopens (id : NodeId) := t.opensAt_declareAt v.node .current id
    { kind := .className, name := id, node := v.node }
  have hregion := mem_regionsAt_of_own hkind hv (hown.trans hscopes)
  have hinside : Step.Declare (t.Declares v) (v.node :: t.outside v)
      (parts.id.toList.flatMap fun id =>
        t.declareAt .current id { kind := .className, name := id, node := v.node }) :=
    .flatMap (fun id _ => hopens id) fun id _ => t.declare_declareAt _ id (.classInside hregion)
  have hbody := Step.Declare.append (Step.OpensAt.enter v.node .classBody true)
    (.enter .classBody v.node true) hinside
  cases isDeclaration with
  | false => exact hbody
  | true =>
    refine .append (.flatMap fun id _ => hopens id) ?_ hbody
    exact .flatMap (fun id _ => hopens id) fun id _ =>
      t.declare_declareAt _ id (.classAround (hdeclaration rfl ▸ hkind))

/-- What a node declares when it is visited in context `c`. -/
theorem declare_visitedLayout {c : Context} (hrole : ∀ c', v.role = .visited c' → c' = c) :
    Step.Declare (t.Declares v) (t.outside v) (t.visitedLayout c v.node kind).own := by
  cases kind with
  | identifier | thisExpression =>
    refine .of_none fun step hstep _ _ _ heq => ?_
    rw [List.mem_singleton.1 hstep] at heq
    cases heq
  | staticBlock | blockStatement | switchStatement | withStatement | catchClause =>
    exact Step.Declare.enter _ v.node false
  | forStatement | forInStatement | forOfStatement =>
    exact (Step.Declare.enter _ v.node false).ite
  | functionDeclaration f | functionExpression f | arrowFunctionExpression f =>
    exact declare_functionLayout hkind hv hown c _ _ _
  | classDeclaration parts => exact declare_classLayout hkind hv hown c true (fun _ => rfl) rfl
  | classExpression parts =>
    exact declare_classLayout hkind hv hown c false (fun h => nomatch h) rfl
  | importDeclaration specifiers source importKind =>
    unfold visitedLayout
    dsimp only
    split
    · next hmodule =>
      exact declare_importSteps hkind rfl fun c' hc => by rwa [hrole c' hc]
    · refine .of_none fun step hstep _ _ _ heq => ?_
      rw [List.mem_singleton.1 hstep] at heq
      cases heq
  | exportNamedDeclaration declaration specifiers source =>
    cases source <;> cases declaration <;> exact Step.Declare.nil
  | _ => exact Step.Declare.nil

end Own

/-- What a visited node declares, by its role. The context matters for imports only. -/
theorem declare_own (hv : v ∈ t.visits (t.rootVisit o)) :
    Step.Declare (t.Declares v) (t.outside v) (t.layout v.role v.node).own := by
  obtain ⟨kind, hkind⟩ := exists_kind?_of_mem_visits hv
  have hvisited (c : Context) (hown : t.ownScopes kind v.role = t.scopesOfKind kind)
      (hrole : ∀ c', v.role = .visited c' → c' = c) :=
    declare_visitedLayout hkind hv hown hrole
  rw [layout_of_kind? hkind]
  cases hrole : v.role with
  | visited c =>
    rw [hrole] at hvisited
    exact hvisited c rfl fun c' hc => (Role.visited.inj hc).symm
  | fieldValue c =>
    rw [hrole] at hvisited
    exact hvisited c rfl fun _ hc => nomatch hc
  | functionBody c =>
    rw [hrole] at hvisited
    cases kind with
    | blockStatement statements => exact Step.Declare.nil
    | _ => exact hvisited c rfl fun _ hc => nomatch hc
  | loopHead c right =>
    rw [hrole] at hvisited
    cases kind with
    | variableDeclaration => exact Step.Declare.nil
    | _ => exact hvisited c rfl fun _ hc => nomatch hc
  | program o' =>
    cases kind with
    | program body sourceType => exact t.declare_enterProgram o' sourceType
    | _ => exact Step.Declare.nil
  | skipped => exact Step.Declare.nil
  | updated writeExpr =>
    refine .of_none fun step hstep _ _ _ heq => ?_
    unfold layoutOfKind updateAt at hstep
    cases hname : t.identifierName? v.node <;> simp [hname, heq] at hstep
  | target c use root s =>
    rw [outside_eq hkind, hrole]
    exact declare_target v hrole kind
  | declarator => cases kind <;> exact Step.Declare.nil

/-- Every declaration among the marks of a visited node is one of these. -/
theorem declares_of_mem_marks (hv : v ∈ t.visits (t.rootVisit o)) {blocks : List NodeId}
    {place : Place} {name : String} {d : Definition}
    (h : ⟨blocks, .declare place name (some d)⟩ ∈ t.marks v) : t.Declares v blocks place d := by
  rcases List.mem_append.1 h with h | h
  · obtain ⟨kind, hkind⟩ := exists_kind?_of_mem_visits hv
    rw [layout_of_kind? hkind, first_layoutOfKind] at h
    exact (Step.Declare.enter (P := t.Declares v) .fieldInitializer v.node false).ite _ _ _ _ h
  · exact declare_own hv _ _ _ _ h

end Tree

end LexicalScope
