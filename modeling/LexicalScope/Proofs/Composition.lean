import LexicalScope.Proofs.Marks
import LexicalScope.Proofs.Visits

/-!
Composition. The steps at a node are steps of its own and the steps of the nodes that it visits,
one after the other. So a property of outlines that concatenation keeps passes from these parts to
the whole, whatever the kind of the node.
-/
namespace LexicalScope

namespace NodeKind

def isClass : NodeKind → Bool
  | classDeclaration _ | classExpression _ => true
  | _ => false

def isClassBody : NodeKind → Bool
  | classBody _ => true
  | _ => false

def isMethod : NodeKind → Bool
  | methodDefinition _ => true
  | _ => false

end NodeKind

namespace Tree

def isClass (t : Tree) (n : NodeId) : Bool :=
  (t.kind? n).any NodeKind.isClass

def isClassBody (t : Tree) (n : NodeId) : Bool :=
  (t.kind? n).any NodeKind.isClassBody

def isMethod (t : Tree) (n : NodeId) : Bool :=
  (t.kind? n).any NodeKind.isMethod

/-- Neither a class nor the body of one. -/
def IsOrdinary (t : Tree) (n : NodeId) : Prop :=
  t.isClass n = false ∧ t.isClassBody n = false

def strictAt (t : Tree) (kind : ScopeKind) (n : NodeId) : Bool :=
  match kind with
  | .classBody | .module => true
  | .function => (t.kind? n).any t.isStrictFunction
  | _ => false

/-- The nodes that the steps at `n` visit: children of it, or of ordinary nodes below it that are
passed over, as those inside a pattern. -/
inductive Reaches (t : Tree) (n m : NodeId) : Prop
  | child (hm : m ∈ t.childrenOf n)
  | through {p : NodeId} (hbelow : t.Below p n) (hordinary : t.IsOrdinary p)
      (hm : m ∈ t.childrenOf p)

variable {t : Tree} {n m p : NodeId} {kind : NodeKind}

theorem isOrdinary_of_kind? (hkind : t.kind? n = some kind) (hclass : kind.isClass = false)
    (hbody : kind.isClassBody = false) : t.IsOrdinary n := by
  refine ⟨?_, ?_⟩
  · rw [isClass, hkind, Option.any_some, hclass]
  · rw [isClassBody, hkind, Option.any_some, hbody]

theorem mem_childrenOf (hkind : t.kind? n = some kind) (hm : m ∈ kind.children) :
    m ∈ t.childrenOf n :=
  mem_childrenOf_iff.2 ⟨kind, hkind, hm⟩

theorem Reaches.below (h : t.Reaches n m) : t.Below m n := by
  cases h with
  | child hm => exact IsChild.below hm
  | through hbelow _ hm => exact .head hm hbelow

/-- What a node reaches has a smaller number. -/
theorem Reaches.index_lt (h : t.Reaches n m) : m.index < n.index := by
  cases h with
  | child hm => exact index_lt_of_mem_childrenOf hm
  | through hbelow _ hm =>
    exact Nat.lt_of_lt_of_le (index_lt_of_mem_childrenOf hm) (index_le_of_below hbelow)

/-- The right-hand nodes of a pattern are children of ordinary nodes in it. -/
theorem exists_parent_of_mem_rightHand {root : NodeId} {fuel : Nat} {s : Pattern.Surroundings}
    (hm : m ∈ (Pattern.walkWithin t root fuel s n).rightHand) :
    ∃ p, t.Below p n ∧ t.IsOrdinary p ∧ m ∈ t.childrenOf p := by
  induction fuel generalizing s n with
  | zero => cases hm
  | succ fuel ih =>
    rw [Pattern.walkWithin] at hm
    cases hkind : t.kind? n with
    | none => simp [hkind] at hm
    | some kind =>
      rw [hkind, Option.elim_some] at hm
      have hwalk (s : Pattern.Surroundings) (c : NodeId) (hc : c ∈ kind.children)
          (hm : m ∈ (Pattern.walkWithin t root fuel s c).rightHand) :
          ∃ p, t.Below p n ∧ t.IsOrdinary p ∧ m ∈ t.childrenOf p := by
        obtain ⟨p, hbelow, hp⟩ := ih hm
        exact ⟨p, hbelow.tail (mem_childrenOf hkind hc), hp⟩
      have hhere (hm : m ∈ kind.children) (hclass : kind.isClass = false)
          (hbody : kind.isClassBody = false) :
          ∃ p, t.Below p n ∧ t.IsOrdinary p ∧ m ∈ t.childrenOf p :=
        ⟨n, .refl, isOrdinary_of_kind? hkind hclass hbody, mem_childrenOf hkind hm⟩
      unfold Pattern.ofKind at hm
      split at hm
      case h_1 => cases hm
      case h_2 p =>
        rcases List.mem_append.1 hm with hm | hm
        · change m ∈ (if p.computed then [p.key] else []) at hm
          split at hm
          · exact hhere (List.mem_singleton.1 hm ▸ by simp [NodeKind.children]) rfl rfl
          · cases hm
        · exact hwalk s p.value (by simp [NodeKind.children]) hm
      case h_3 left right =>
        rcases List.mem_append.1 hm with hm | hm
        · exact hwalk _ left (by simp [NodeKind.children]) hm
        · exact hhere (List.mem_singleton.1 hm ▸ by simp [NodeKind.children]) rfl rfl
      case h_4 left right =>
        rcases List.mem_append.1 hm with hm | hm
        · exact hwalk _ left (by simp [NodeKind.children]) hm
        · exact hhere (List.mem_singleton.1 hm ▸ by simp [NodeKind.children]) rfl rfl
      case h_5 argument => exact hwalk _ argument (by simp [NodeKind.children]) hm
      case h_6 object key computed _ =>
        refine hhere ?_ rfl rfl
        change m ∈ (if computed then [key, object] else [object]) at hm
        cases computed <;> simp_all [NodeKind.children, or_comm]
      case h_7 callee arguments _ =>
        rcases List.mem_append.1 hm with hm | hm
        · exact hhere (List.mem_cons_of_mem _ hm) rfl rfl
        · exact hwalk s callee (List.mem_cons_self ..) hm
      case h_8 =>
        obtain ⟨p, hp, hm⟩ := List.mem_flatMap.1 hm
        obtain ⟨c, hc, rfl⟩ := List.mem_map.1 hp
        exact hwalk s c hc hm

/-- A declaration opens no scope. -/
theorem isStill_declareAt (t : Tree) (place : Place) (id : NodeId) (d : Definition) :
    ∀ step ∈ t.declareAt place id d, step.IsStill := by
  unfold declareAt
  cases t.identifierName? id with
  | none => exact List.forall_mem_nil _
  | some name => exact List.forall_mem_singleton.2 trivial

/-- What the parts of the steps at `n` have, their concatenation keeps: steps that stay in the
scopes as they are, scopes that open or close at `n` or a child, and visits. The scope of a
function's own name opens together with that of the function. A function inside a method is made
strict, whatever its body says. -/
structure Assembles (t : Tree) (visitIn : Context → NodeId → Outline) (c : Context) (n : NodeId)
    (P : Outline → Prop) : Prop where
  nil : P []
  append : ∀ {steps steps'}, P steps → P steps' → P (steps ++ steps')
  still : ∀ {step : Step String}, step.IsStill → P [step]
  enter : ∀ {kind m strict}, kind ≠ .functionName → m = n ∨ m ∈ t.childrenOf n →
    (c.inMethod = false → strict = t.strictAt kind m) → P [.enter kind m strict]
  enterNamed : ∀ {f id strict}, t.kind? n = some (.functionExpression f) → f.id = some id →
    (c.inMethod = false → strict = t.strictAt .function n) →
    P (t.functionNameSteps n (.functionExpression f) ++ [.enter .function n strict])
  leave : ∀ {m}, m = n ∨ m ∈ t.childrenOf n → P [.leave m]
  visit : ∀ {c' m}, (c'.inMethod → c.inMethod ∨ t.isMethod n) → t.Reaches n m → P (visitIn c' m)

namespace Assembles

variable {visitIn : Context → NodeId → Outline} {c : Context} {P : Outline → Prop}
  (hP : t.Assembles visitIn c n P)
include hP

theorem cons {step : Step String} {steps : Outline} (h : P [step]) (h' : P steps) :
    P (step :: steps) :=
  hP.append h h'

theorem flatMap {α : Type} {l : List α} {f : α → Outline} (h : ∀ x ∈ l, P (f x)) :
    P (l.flatMap f) := by
  induction l with
  | nil => exact hP.nil
  | cons x l ih =>
    rw [List.flatMap_cons]
    exact hP.append (h x (List.mem_cons_self ..)) (ih fun y hy => h y (List.mem_cons_of_mem _ hy))

theorem ite {p : Prop} [Decidable p] {steps : Outline} (h : p → P steps) :
    P (if p then steps else []) := by
  split
  · next hp => exact h hp
  · exact hP.nil

theorem of_isStill {steps : Outline} (h : ∀ step ∈ steps, step.IsStill) : P steps := by
  rw [← List.flatMap_singleton' steps]
  exact hP.flatMap fun step hstep => hP.still (h step hstep)

theorem declareAt (place : Place) (id : NodeId) (d : Definition) : P (t.declareAt place id d) :=
  hP.of_isStill (t.isStill_declareAt place id d)

theorem updateAt (m : NodeId) (writeExpr : Option NodeId) : P (t.updateAt m writeExpr) :=
  hP.of_isStill (t.isStill_updateAt m writeExpr)

theorem importSteps (declaration : NodeId) (specifiers : List NodeId) (kind : ImportKind) :
    P (t.importSteps declaration specifiers kind) := by
  refine hP.flatMap fun specifier _ => ?_
  split
  · exact hP.declareAt _ _ _
  · exact hP.nil

theorem loopDeclarationWrites (declarations : List NodeId) (right : NodeId) :
    P (t.loopDeclarationWrites declarations right) := by
  unfold Tree.loopDeclarationWrites
  split
  · refine hP.of_isStill fun step hstep => ?_
    obtain ⟨x, -, rfl⟩ := List.mem_map.1 hstep
    trivial
  · exact hP.nil

theorem visitSame (hm : t.Reaches n m) : P (visitIn c m) :=
  hP.visit .inl hm

/-- What still steps and the visits to right-hand nodes have, the steps of a pattern have. -/
theorem patternSteps {pattern : NodeId} (hpattern : t.Below pattern n) (use : PatternUse) :
    P (t.patternSteps (visitIn c) pattern use.steps) := by
  refine hP.append (hP.flatMap fun x _ => hP.of_isStill (use.isStill_steps x)) ?_
  refine hP.flatMap fun m hm => hP.visitSame ?_
  obtain ⟨p, hbelow, hordinary, hm⟩ := exists_parent_of_mem_rightHand hm
  exact .through (hbelow.trans hpattern) hordinary hm

theorem declaratorSteps {d : NodeId} (hd : d ∈ t.childrenOf n) (declaration : NodeId)
    (kind : VariableKind) (index : Nat) :
    P (t.declaratorSteps (visitIn c) declaration d kind index) := by
  unfold Tree.declaratorSteps
  split
  · next id init hkind =>
    have hchild (m : NodeId) (hm : m ∈ id :: init.toList) : m ∈ t.childrenOf d :=
      mem_childrenOf hkind hm
    have hid : t.Below id n := .head (hchild id (List.mem_cons_self ..)) (IsChild.below hd)
    have hpattern := hP.patternSteps hid (.declarator declaration d kind index init none)
    simp only [PatternUse.steps, Option.toList_none, List.map_nil, List.append_nil] at hpattern
    refine hP.append hpattern (hP.flatMap fun m hm => hP.visitSame ?_)
    exact .through (IsChild.below hd) (isOrdinary_of_kind? hkind rfl rfl)
      (hchild m (List.mem_cons_of_mem _ hm))
  · exact hP.nil

theorem enterHere {kind : ScopeKind} {strict : Bool} (hname : kind ≠ .functionName)
    (hstrict : strict = t.strictAt kind n) : P [.enter kind n strict] :=
  hP.enter hname (.inl rfl) fun _ => hstrict

theorem leaveHere : P [.leave n] :=
  hP.leave (.inl rfl)

/-- A scope around everything that happens inside a node. -/
theorem around (kind : ScopeKind) (hname : kind ≠ .functionName)
    (hkind : t.strictAt kind n = false) {steps : Outline} (h : P steps) :
    P (.enter kind n false :: steps ++ [.leave n]) :=
  hP.append (hP.cons (hP.enterHere hname hkind.symm) h) hP.leaveHere

section Kinds

variable (hkind : t.kind? n = some kind)
include hkind

theorem visitChild (hm : m ∈ kind.children) : P (visitIn c m) :=
  hP.visitSame (.child (mem_childrenOf hkind hm))

theorem visitChildren {nodes : List NodeId} (h : ∀ m ∈ nodes, m ∈ kind.children) :
    P (nodes.flatMap (visitIn c)) :=
  hP.flatMap fun m hm => hP.visitChild hkind (h m hm)

theorem loopSteps {left right body : NodeId}
    (h : ∀ m ∈ [left, right, body], m ∈ kind.children) :
    P (t.loopSteps (visitIn c) n left right body) := by
  have hvisit (m : NodeId) (hm : m ∈ [left, right, body]) := hP.visitChild hkind (h m hm)
  have hleft := h left (by simp)
  unfold Tree.loopSteps
  refine hP.append (hP.append (hP.append ?_ (hvisit right (by simp))) (hvisit body (by simp)))
    hP.leaveHere
  split
  · refine hP.append (hP.append ?_ (hvisit left (by simp))) (hP.loopDeclarationWrites _ _)
    split
    · exact hP.nil
    · exact hP.enterHere (by decide) rfl
  · exact hP.patternSteps (IsChild.below (mem_childrenOf hkind hleft)) (.assignment n right false)

theorem functionHead (isArrow : Bool) : P (t.functionNameSteps n kind ++
    enterFunction n (c.inMethod || t.isStrictFunction kind) isArrow) := by
  have hstrict : c.inMethod = false →
      (c.inMethod || t.isStrictFunction kind) = t.strictAt .function n := by
    intro hmethod
    rw [hmethod, strictAt, hkind, Option.any_some, Bool.false_or]
  have hscopes : P (t.functionNameSteps n kind ++
      [.enter .function n (c.inMethod || t.isStrictFunction kind)]) := by
    have henter : P [.enter .function n (c.inMethod || t.isStrictFunction kind)] :=
      hP.enter (by decide) (.inl rfl) hstrict
    cases kind with
    | functionDeclaration f =>
      obtain ⟨id, _, _, _, _⟩ := f
      cases id with
      | none => exact henter
      | some id => exact hP.append (hP.declareAt _ _ _) henter
    | functionExpression f =>
      obtain ⟨id, _, _, _, _⟩ := f
      cases id with
      | none => exact henter
      | some id => exact hP.enterNamed hkind rfl hstrict
    | _ => exact henter
  cases isArrow with
  | true => exact hscopes
  | false =>
    have harguments : P [.declare .current "arguments" none] := hP.still trivial
    have hhead := hP.append hscopes harguments
    rwa [List.append_assoc] at hhead

/-- The steps of a function are those of its head, its parameters and its body. -/
theorem functionSteps : P (t.functionSteps (visitIn c) c n kind) := by
  unfold Tree.functionSteps
  refine hP.append (hP.append (hP.append (hP.functionHead hkind _) ?_) ?_) hP.leaveHere
  · refine hP.flatMap ?_
    rintro ⟨param, index⟩ hmem
    have hparam : param ∈ kind.functionParams?.getD [] :=
      (List.mem_zipIdx' hmem).2 ▸ List.getElem_mem _
    refine hP.patternSteps (IsChild.below (mem_childrenOf hkind ?_)) (.parameter n index)
    exact NodeKind.mem_children_of_functionParams? hparam
  · refine hP.flatMap fun body hmem => ?_
    have hbody := NodeKind.mem_children_of_functionBody? (Option.mem_toList.1 hmem)
    split
    · next statements hblock =>
      refine hP.flatMap fun m hm => hP.visitSame ?_
      exact .through (IsChild.below (mem_childrenOf hkind hbody))
        (isOrdinary_of_kind? hblock rfl rfl) (mem_childrenOf hblock hm)
    · exact hP.visitChild hkind hbody

theorem classSteps {parts : Class} (hsuper : ∀ m ∈ parts.superClass, m ∈ kind.children)
    (hbody : parts.body ∈ kind.children) (isDeclaration : Bool) :
    P (t.classSteps (visitIn c) n isDeclaration parts) := by
  have hnamed : P (parts.id.toList.flatMap fun id =>
      t.declareAt .current id { kind := .className, name := id, node := n }) :=
    hP.flatMap fun _ _ => hP.declareAt _ _ _
  have hsuperClass : P (parts.superClass.toList.flatMap (visitIn c)) :=
    hP.visitChildren hkind fun m hm => hsuper m (Option.mem_toList.1 hm)
  exact hP.append (hP.append (hP.append (hP.append (hP.ite fun _ => hnamed)
    (hP.cons (hP.enterHere (by decide) rfl) hnamed)) hsuperClass) (hP.visitChild hkind hbody)) hP.leaveHere

/-- The steps at a node, one case for each kind of node with rules of its own. -/
theorem stepsOfKind : P (t.stepsOfKind visitIn c n kind) := by
  have hchild (m : NodeId) (hm : m ∈ kind.children) := hP.visitChild hkind hm
  have hkey (key : NodeId) (computed : Bool) (hkey : key ∈ kind.children) :
      P (if computed then visitIn c key else []) := hP.ite fun _ => hchild key hkey
  cases kind with
  | identifier name => exact hP.still trivial
  | thisExpression => exact hP.still trivial
  | privateIdentifier name | superExpression => exact hP.nil
  | metaProperty object key => exact hP.nil
  | breakStatement label | continueStatement label => exact hP.nil
  | exportAllDeclaration exported source => exact hP.nil
  | assignmentExpression operator left right =>
    refine hP.append ?_ (hchild right (by simp [NodeKind.children]))
    have hleft := hchild left (List.mem_cons_self ..)
    split
    · split
      · exact hP.patternSteps (IsChild.below (mem_childrenOf hkind (List.mem_cons_self ..)))
          (.assignment n right true)
      · exact hP.updateAt left (some right)
    · exact hleft
  | updateExpression operator isPrefix argument =>
    unfold Tree.stepsOfKind
    dsimp only
    split
    · exact hP.updateAt argument none
    · exact hchild argument (by simp [NodeKind.children])
  | memberExpression object key computed _ =>
    exact hP.append (hchild object (List.mem_cons_self ..))
      (hkey key computed (by simp [NodeKind.children]))
  | property p =>
    exact hP.append (hkey p.key p.computed (by simp [NodeKind.children]))
      (hchild p.value (by simp [NodeKind.children]))
  | methodDefinition m =>
    have hmethod : t.isMethod n := by rw [isMethod, hkind]; rfl
    have hvalue : m.value ∈ t.childrenOf n := mem_childrenOf hkind (by simp [NodeKind.children])
    exact hP.append (hkey m.key m.computed (by simp [NodeKind.children]))
      (hP.visit (fun _ => .inr hmethod) (.child hvalue))
  | propertyDefinition p =>
    refine hP.append (hkey p.key p.computed (by simp [NodeKind.children])) ?_
    refine hP.flatMap fun value hvalue => ?_
    have hvalue : value ∈ (NodeKind.propertyDefinition p).children :=
      List.mem_cons_of_mem _ hvalue
    have hmem := Or.inr (a := value = n) (mem_childrenOf hkind hvalue)
    exact hP.append (hP.cons (hP.enter (by decide) hmem fun _ => rfl) (hchild value hvalue))
      (hP.leave hmem)
  | staticBlock body => exact hP.around .staticBlock (by decide) rfl (hP.visitChildren hkind fun _ hm => hm)
  | labeledStatement label body => exact hchild body (by simp [NodeKind.children])
  | blockStatement body => exact hP.around .block (by decide) rfl (hP.visitChildren hkind fun _ hm => hm)
  | forStatement start test update body =>
    exact hP.append (hP.append (hP.ite fun _ => hP.enterHere (by decide) rfl)
      (hP.visitChildren hkind fun _ hm => hm)) hP.leaveHere
  | forInStatement left right body | forOfStatement left right body _ =>
    exact hP.loopSteps hkind fun _ hm => hm
  | switchStatement discriminant cases =>
    have hcases : P (cases.flatMap (visitIn c)) :=
      hP.visitChildren hkind fun _ hm => List.mem_cons_of_mem _ hm
    exact hP.append (hP.append (hchild discriminant (List.mem_cons_self ..))
      (hP.cons (hP.enterHere (by decide) rfl) hcases)) hP.leaveHere
  | withStatement object body =>
    have hbody := hchild body (by simp [NodeKind.children])
    exact hP.append (hP.append (hchild object (List.mem_cons_self ..))
      (hP.cons (hP.enterHere (by decide) rfl) hbody)) hP.leaveHere
  | catchClause param body =>
    have hbindings : P (param.toList.flatMap fun p =>
        t.patternSteps (visitIn c) p (PatternUse.catchParameter n).steps) :=
      hP.flatMap fun p hp => hP.patternSteps
        (IsChild.below (mem_childrenOf hkind (List.mem_append_left _ hp))) _
    exact hP.append (hP.append (hP.cons (hP.enterHere (by decide) rfl) hbindings)
      (hchild body (by simp [NodeKind.children]))) hP.leaveHere
  | variableDeclaration kind declarations =>
    refine hP.flatMap ?_
    rintro ⟨declarator, index⟩ hmem
    have hmem : declarator ∈ declarations := (List.mem_zipIdx' hmem).2 ▸ List.getElem_mem _
    exact hP.declaratorSteps (mem_childrenOf hkind hmem) n kind index
  | functionDeclaration f => exact hP.functionSteps hkind
  | functionExpression f => exact hP.functionSteps hkind
  | arrowFunctionExpression f => exact hP.functionSteps hkind
  | classDeclaration parts =>
    exact hP.classSteps hkind (fun m hm => by simp [NodeKind.children, Option.mem_def.1 hm])
      (by simp [NodeKind.children]) true
  | classExpression parts =>
    exact hP.classSteps hkind (fun m hm => by simp [NodeKind.children, Option.mem_def.1 hm])
      (by simp [NodeKind.children]) false
  | importDeclaration specifiers source kind =>
    unfold Tree.stepsOfKind
    dsimp only
    split
    · exact hP.importSteps n specifiers kind
    · exact hP.still trivial
  | exportNamedDeclaration declaration specifiers source =>
    cases source with
    | some source => exact hP.nil
    | none =>
      cases declaration with
      | none => exact hP.visitChildren hkind fun _ hm => hm
      | some declaration => exact hchild declaration (by simp [NodeKind.children])
  | exportSpecifier localName exported => exact hchild localName (by simp [NodeKind.children])
  | _ => exact hP.visitChildren hkind fun _ hm => hm

end Kinds

end Assembles

/-- What every part of the steps at `n` has by itself. -/
structure Composes (t : Tree) (visitIn : Context → NodeId → Outline) (c : Context) (n : NodeId)
    (P : Outline → Prop) : Prop where
  nil : P []
  append : ∀ {steps steps'}, P steps → P steps' → P (steps ++ steps')
  still : ∀ {step : Step String}, step.IsStill → P [step]
  enter : ∀ {kind m strict}, m = n ∨ m ∈ t.childrenOf n →
    (c.inMethod = false → strict = t.strictAt kind m) → P [.enter kind m strict]
  leave : ∀ {m}, m = n ∨ m ∈ t.childrenOf n → P [.leave m]
  visit : ∀ {c' m}, (c'.inMethod → c.inMethod ∨ t.isMethod n) → t.Reaches n m → P (visitIn c' m)

namespace Composes

variable {visitIn : Context → NodeId → Outline} {c : Context} {P : Outline → Prop}
  (hP : t.Composes visitIn c n P)
include hP

/-- Whatever holds of the steps of each part holds of the node. -/
theorem assembles : t.Assembles visitIn c n P where
  nil := hP.nil
  append := hP.append
  still := hP.still
  enter _ := hP.enter
  leave := hP.leave
  visit := hP.visit
  enterNamed {f id strict} _ hid hstrict := by
    have hname : t.functionNameSteps n (.functionExpression f) =
        [.enter .functionName n false] ++
          t.declareAt .current id { kind := .functionName, name := id, node := n } := by
      obtain ⟨_, _, _, _, _⟩ := f
      obtain rfl := hid
      rfl
    rw [hname]
    refine hP.append (hP.append (hP.enter (.inl rfl) fun _ => rfl) ?_) (hP.enter (.inl rfl) hstrict)
    unfold declareAt
    cases t.identifierName? id with
    | none => exact hP.nil
    | some name => exact hP.still trivial

theorem stepsOfKind (hkind : t.kind? n = some kind) : P (t.stepsOfKind visitIn c n kind) :=
  hP.assembles.stepsOfKind hkind

end Composes

end Tree

end LexicalScope
