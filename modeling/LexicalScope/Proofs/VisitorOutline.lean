import LexicalScope.Proofs.VisitorStages

/-!
The visitor follows the outline. Each visit takes the steps that the outline has for the node, or
stops at the first misplaced import among them, and it leaves the open scopes as a visit may. So
the pass builds the graph that analysis builds.
-/
namespace LexicalScope.Visitor

open Stage

variable {ν : Type} [DecidableEq ν] {t : Tree} {handle : String → ν} {v v₀ : Visitor ν}
  {A : List Anchored} {n m : NodeId}

/-- A stage that takes all steps at a node, from a state that may have come from elsewhere. -/
def Leaves (t : Tree) (handle : String → ν) (n : NodeId) (v₀ : Visitor ν) (A : List Anchored)
    (stage : Stage ν) (steps : Outline) : Prop :=
  Takes t handle (Stands t v₀ A) stage steps (Left t n v₀ A)

/-- Visits to the nodes that `n` reaches leave them as they should. -/
def VisitsBelow (t : Tree) (handle : String → ν) (n : NodeId)
    (visitIn : Context → NodeId → Outline) (visit : NodeId → Stage ν) : Prop :=
  ∀ m, t.Reaches n m → ∀ v A, v.Holds t A → Clear t m A →
    Agrees t handle v (visitIn v.context m) (Left t m v A) (visit m v)

theorem Inside.leaves {stage : Stage ν} {steps : Outline}
    (h : Inside t handle v₀ A stage steps) : Leaves t handle n v₀ A stage steps :=
  h.mono fun _ => Stands.left

/-- The stages at a node that may open scopes, up to leaving it. -/
theorem leaves_of_ahead {stage : Stage ν} {steps : Outline}
    (h : Takes t handle (Ahead t n v₀ A) stage steps (Left t n v₀ A)) :
    Leaves t handle n v₀ A stage steps :=
  fun v hv => h v hv.ahead

section Names

theorem inside_writeLoopDeclaration (declarations : List NodeId) (right : NodeId) :
    Inside t handle v₀ A (writeLoopDeclaration t handle declarations right)
      (t.loopDeclarationWrites declarations right) := by
  unfold writeLoopDeclaration Tree.loopDeclarationWrites
  cases declarations.head?.bind t.kind? with
  | none => exact Takes.skip
  | some kind =>
    cases kind with
    | variableDeclarator id init =>
      exact Takes.eachStep fun x _ => inside_write x site_none right false true
    | _ => exact Takes.skip

theorem inside_nameClass (id : Option NodeId) : Inside t handle v₀ A (nameClass t handle n id)
    (id.toList.flatMap fun id =>
      t.declareAt .current id { kind := .className, name := id, node := n }) :=
  Takes.each fun _ _ => inside_declare (fun _ _ => rfl) _ _

theorem inside_import (specifiers : List NodeId) (kind : ImportKind) :
    Inside t handle v₀ A (visitImport t handle n specifiers kind)
      (t.importSteps n specifiers kind) := by
  refine Takes.each fun specifier _ => ?_
  cases (t.kind? specifier).bind Tree.importedBinding? with
  | none => exact Takes.skip
  | some binding => exact inside_declare (fun _ _ => rfl) _ _

end Names

omit [DecidableEq ν] in
theorem Holds.setMethod (h : v.Holds t A) (inMethod : Bool) : Holds t { v with inMethod } A where
  sound := ⟨h.sound.rooted, h.sound.current_lt, h.sound.program⟩
  opened_eq := h.opened_eq
  blockOf_eq := h.blockOf_eq
  ne_nil := h.ne_nil

omit [DecidableEq ν] in
/-- The scopes are the same whether the visitor is in a method or not. -/
theorem Moves.setBack {v' : Visitor ν} {inMethod : Bool} (h : Moves t { v with inMethod } v') :
    v.Moves t { v' with inMethod := v.inMethod } where
  sound := ⟨h.sound.rooted, h.sound.current_lt, h.sound.program⟩
  sound' := ⟨h.sound'.rooted, h.sound'.current_lt, h.sound'.program⟩
  context_eq := by
    have hmodule := congrArg Context.isModule h.context_eq
    rw [context, context, Context.mk.injEq]
    exact ⟨hmodule, rfl⟩
  size_le := h.size_le
  frame_eq := h.frame_eq
  opened_subset := h.opened_subset
  closed := h.closed
  emptied := h.emptied
  kept := h.kept

section Visits

variable {visitIn : Context → NodeId → Outline} {visit : NodeId → Stage ν}
  (hvisit : VisitsBelow t handle n visitIn visit) (hA : Clear t n A)
include hvisit hA

/-- A node below `n` gives back the open scopes as it finds them. -/
theorem inside_visit (hm : t.Reaches n m) :
    Inside t handle v₀ A (visit m) (visitIn v₀.context m) := by
  intro v hv
  have habove := hA.not_below hm
  have hagrees := hvisit m hm v A hv.2 fun p hp hbelow => absurd hbelow (habove p hp)
  rw [hv.1.context_eq] at hagrees
  refine hagrees.mono ?_
  rintro v' ⟨popped, rest, rfl, hpopped, hstands⟩
  cases popped with
  | nil => exact hv.trans hstands
  | cons p popped =>
    have hp := hpopped p (List.mem_cons_self ..)
    exact absurd (hp ▸ .refl) (habove p (List.mem_cons_self ..))

theorem inside_each {nodes : List NodeId} (h : ∀ m ∈ nodes, t.Reaches n m) :
    Inside t handle v₀ A (each nodes visit) (nodes.flatMap (visitIn v₀.context)) :=
  Takes.each fun m hm => inside_visit hvisit hA (h m hm)

theorem inside_visitIf {condition : Bool} (hm : t.Reaches n m) :
    Inside t handle v₀ A (visitIf visit condition m)
      (if condition then visitIn v₀.context m else []) := by
  unfold visitIf
  split
  · exact inside_visit hvisit hA hm
  · exact Takes.skip

theorem inside_visitPattern {pattern : NodeId} (hpattern : t.Below pattern n)
    {target : PatternTarget → Stage ν} {steps : PatternTarget → Outline}
    (htarget : ∀ x, Inside t handle v₀ A (target x) (steps x)) :
    Inside t handle v₀ A (visitPattern t visit pattern target)
      (t.patternSteps (visitIn v₀.context) pattern steps) := by
  refine Inside.seq (Takes.each fun x _ => htarget x) (inside_each hvisit hA fun m hm => ?_)
  obtain ⟨p, hbelow, hordinary, hm⟩ := Tree.exists_parent_of_mem_rightHand hm
  exact .through (hbelow.trans hpattern) hordinary hm

/-- An assignment writes the targets that the outline has. -/
theorem inside_assign {left : NodeId} (hleft : t.Below left n) (assignment right : NodeId)
    (whole : Bool) : Inside t handle v₀ A (assign t handle visit assignment left right whole)
      (t.assignSteps (visitIn v₀.context) assignment left right whole) := by
  refine Inside.of_here fun v hv => ?_
  have hsite (w : Visitor ν) (hw : Stands t v A w) :
      (if v.isStrict then none else some assignment) =
        if w.isStrict then none else some assignment := by rw [hw.isStrict_eq hv.2]
  have hpattern := inside_visitPattern hvisit hA hleft fun x =>
    Inside.seq (inside_writeDefaults x hsite false)
      (inside_write x hsite right (whole && x.topLevel) false)
  rw [← hv.1.context_eq]
  exact hpattern v hv.2.stands

/-- What a method changes for its value it changes back. -/
theorem inside_visitMethod (hm : t.Reaches n m) : Inside t handle v₀ A (visitMethod visit m)
    (visitIn { v₀.context with inMethod := true } m) := by
  intro v hv
  have hinside : Inside t handle { v with inMethod := true } A (visit m)
      (visitIn (context { v with inMethod := true }) m) := inside_visit hvisit hA hm
  have hinside := hinside _ (hv.2.setMethod true).stands
  have hcontext : context { v with inMethod := true } = { v₀.context with inMethod := true } := by
    rw [← hv.1.context_eq]
    rfl
  rw [hcontext] at hinside
  unfold visitMethod
  cases hvisited : visit m { v with inMethod := true } with
  | error e =>
    rw [hvisited] at hinside
    exact hinside
  | ok v' =>
    rw [hvisited] at hinside
    obtain ⟨hnone, hcursor, hmoves, hholds⟩ := hinside
    exact ⟨hnone, hcursor, hv.1.trans hmoves.setBack, hholds.setMethod v.inMethod⟩

/-- The scope of a field initializer is anchored at the value, so leaving the value may close it
already. Either way it is closed in the end, and no other scope with it. -/
theorem inside_visitField {value : NodeId} (hvalue : t.Reaches n value) :
    Inside t handle v₀ A (visitField t visit value)
      (.enter .fieldInitializer value false :: visitIn v₀.context value ++ [.leave value]) := by
  intro v hv
  have habove := hA.not_below hvalue
  have hapart (p : Anchored) (hp : p ∈ A) : p.2 ≠ value := fun heq => habove p hp (heq ▸ .refl)
  have hdrop : A.dropWhile (·.2 = value) = A := by
    cases A with
    | nil => rfl
    | cons p A => exact List.dropWhile_cons_of_neg (by simpa using hapart p (List.mem_cons_self ..))
  have hnest : Takes t handle (Ahead t value v₀ A) (lift (nest .fieldInitializer value false))
      [.enter .fieldInitializer value false] (Ahead t value v₀ A) := ahead_nest fun _ _ => rfl
  have hinner : Takes t handle (Ahead t value v₀ A) (visit value) (visitIn v₀.context value)
      (Ahead t value v₀ A) := by
    rintro w ⟨fresh, hw⟩
    have hclear : Clear t value (fresh.map (·, value) ++ A) :=
      Clear.append (fun p hp hbelow => absurd hbelow (habove p hp)) fresh
    rw [← hw.1.context_eq]
    refine (hvisit value hvalue w _ hw.2 hclear).mono fun w' hleft => ?_
    obtain ⟨fresh', hw'⟩ := ahead_of_left hapart hleft
    exact ⟨fresh', hw.trans hw'⟩
  have hclose : Takes t handle (Ahead t value v₀ A) (lift (close t value)) [.leave value]
      (Stands t v₀ A) := by
    refine Takes.lift rfl fun w hw => ?_
    have hstands := hw.close (hdrop.symm ▸ hv.2.ne_nil)
    rwa [hdrop] at hstands
  exact Takes.seq hnest (Takes.seq hinner hclose) v hv.ahead

theorem inside_declarator {d : NodeId} (hd : d ∈ t.childrenOf n) {kind : VariableKind}
    {target : ScopeId} (htarget : ∀ v, Stands t v₀ A v →
      target = v.place (if kind = .varDecl then .variableScope else .current)) (index : Nat) :
    Inside t handle v₀ A (visitDeclarator t handle visit target n d kind index)
      (t.declaratorSteps (visitIn v₀.context) n d kind index) := by
  unfold visitDeclarator Tree.declaratorSteps
  cases hdeclarator : t.kind? d with
  | none => exact Takes.skip
  | some kind =>
    cases kind with
    | variableDeclarator id init =>
      have hchild (m : NodeId) (hm : m ∈ id :: init.toList) : m ∈ t.childrenOf d :=
        Tree.mem_childrenOf hdeclarator hm
      have hid : t.Below id n := .head (hchild id (List.mem_cons_self ..)) (Tree.IsChild.below hd)
      refine Inside.seq (inside_visitPattern hvisit hA hid fun x => ?_)
        (inside_each hvisit hA fun m hm => ?_)
      · exact Inside.seq (inside_declareTarget htarget x _)
          (Takes.eachStep fun e _ => inside_write x site_none e _ true)
      · exact .through (Tree.IsChild.below hd) (Tree.isOrdinary_of_kind? hdeclarator rfl rfl)
          (hchild m (List.mem_cons_of_mem _ hm))
    | _ => exact Takes.skip

/-- A declaration takes the steps that the outline has. -/
theorem inside_declaration {kind : VariableKind} {declarations : List NodeId}
    (h : ∀ d ∈ declarations, d ∈ t.childrenOf n) :
    Inside t handle v₀ A (visitDeclaration t handle visit n kind declarations)
      (declarations.zipIdx.flatMap fun (d, index) =>
        t.declaratorSteps (visitIn v₀.context) n d kind index) := by
  refine Inside.of_here fun v hv => ?_
  have htarget (w : Visitor ν) (hw : Stands t v A w) :
      (if kind = .varDecl then v.graph.variableScope v.scope else v.scope) =
        w.place (if kind = .varDecl then .variableScope else .current) := by
    rw [hw.place_eq hv.2]
    split <;> rfl
  have hdeclarators : Inside t handle v A
      (each declarations.zipIdx fun (d, index) => visitDeclarator t handle visit
        (if kind = .varDecl then v.graph.variableScope v.scope else v.scope) n d kind index)
      (declarations.zipIdx.flatMap fun (d, index) =>
        t.declaratorSteps (visitIn v.context) n d kind index) := by
    refine Takes.each ?_
    rintro ⟨d, index⟩ hmem
    have hd : d ∈ declarations := (List.mem_zipIdx' hmem).2 ▸ List.getElem_mem _
    exact inside_declarator hvisit hA (h d hd) htarget index
  rw [← hv.1.context_eq]
  exact hdeclarators v hv.2.stands

theorem inside_parameter {param : NodeId} (hparam : t.Below param n) (index : Nat) :
    Inside t handle v₀ A (visitParameter t handle visit n param index)
      (t.patternSteps (visitIn v₀.context) param fun x =>
        x.declare .current (.ofParameter x.identifier n index x.rest)) :=
  inside_visitPattern hvisit hA hparam fun x => inside_declareTarget (fun _ _ => rfl) x _

theorem inside_body {body : NodeId} (hbody : body ∈ t.childrenOf n) :
    Inside t handle v₀ A (visitBody t visit body)
      (match t.kind? body with
        | some (.blockStatement statements) => statements.flatMap (visitIn v₀.context)
        | _ => visitIn v₀.context body) := by
  have hwhole : Inside t handle v₀ A (visit body) (visitIn v₀.context body) :=
    inside_visit hvisit hA (.child hbody)
  unfold visitBody
  cases hkind : t.kind? body with
  | none => exact hwhole
  | some kind =>
    cases kind with
    | blockStatement statements =>
      refine inside_each hvisit hA fun m hm => ?_
      exact .through (Tree.IsChild.below hbody) (Tree.isOrdinary_of_kind? hkind rfl rfl)
        (Tree.mem_childrenOf hkind hm)
    | _ => exact hwhole

omit hvisit in
/-- Whatever leaves open scopes as they are, whichever these are. -/
theorem Takes.ahead_of_clear {stage : Stage ν} {steps : Outline}
    (h : ∀ B, Clear t n B → Inside t handle v₀ B stage steps) :
    Takes t handle (Ahead t n v₀ A) stage steps (Ahead t n v₀ A) :=
  Takes.ahead fun fresh => h _ (hA.append fresh)

omit hvisit in
/-- A scope around everything that happens inside a node. -/
theorem leaves_scoped (hn : t.isProgram n = false) (kind : ScopeKind) {stage : Stage ν}
    {steps : Outline} (h : ∀ B, Clear t n B → Inside t handle v₀ B stage steps) :
    Leaves t handle n v₀ A (lift (nest kind n false) >=> stage >=> lift (close t n))
      (.enter kind n false :: steps ++ [.leave n]) :=
  leaves_of_ahead (Takes.of_eq (Takes.seq (ahead_nest fun _ _ => rfl)
    (Takes.seq (Takes.ahead_of_clear hA h) (ahead_close hn))) rfl)

omit hvisit hA in
theorem ahead_nestIf (condition : Bool) (kind : ScopeKind) : Takes t handle (Ahead t n v₀ A)
    (if condition then lift (nest kind n false) else skip)
    (if condition then [.enter kind n false] else []) (Ahead t n v₀ A) := by
  split
  · exact ahead_nest fun _ _ => rfl
  · exact Takes.skip

/-- A scope around the later part of what happens inside a node. -/
theorem leaves_scopedRest (hn : t.isProgram n = false) (kind : ScopeKind) (hm : t.Reaches n m)
    {stage : Stage ν} {steps : Outline}
    (h : ∀ B, Clear t n B → Inside t handle v₀ B stage steps) :
    Leaves t handle n v₀ A
      (visit m >=> lift (nest kind n false) >=> stage >=> lift (close t n))
      (visitIn v₀.context m ++ .enter kind n false :: steps ++ [.leave n]) := by
  have hfirst : Takes t handle (Ahead t n v₀ A) (visit m) (visitIn v₀.context m)
      (Ahead t n v₀ A) :=
    Takes.ahead_of_clear hA fun B hB => inside_visit hvisit hB hm
  have hnest : Takes t handle (Ahead t n v₀ A) (lift (nest kind n false))
      [.enter kind n false] (Ahead t n v₀ A) := ahead_nest fun _ _ => rfl
  refine leaves_of_ahead (Takes.of_eq (Takes.seq hfirst (Takes.seq hnest
    (Takes.seq (Takes.ahead_of_clear hA h) (ahead_close hn)))) ?_)
  simp

/-- A loop leaves its scope as the outline does. -/
theorem leaves_loop {left right body : NodeId} (hn : t.isProgram n = false)
    (h : ∀ m ∈ [left, right, body], m ∈ t.childrenOf n) :
    Leaves t handle n v₀ A (visitLoop t handle visit n left right body)
      (t.loopSteps (visitIn v₀.context) n left right body) := by
  have hchild (m : NodeId) (hm : m ∈ [left, right, body]) : Takes t handle (Ahead t n v₀ A)
      (visit m) (visitIn v₀.context m) (Ahead t n v₀ A) :=
    Takes.ahead_of_clear hA fun B hB => inside_visit hvisit hB (.child (h m hm))
  have hrest := Takes.seq (hchild right (by simp)) (Takes.seq (hchild body (by simp))
    (ahead_close hn))
  unfold visitLoop Tree.loopSteps
  refine leaves_of_ahead ?_
  simp only [List.append_assoc]
  refine Takes.seq ?_ hrest
  have hassign : Takes t handle (Ahead t n v₀ A) (assign t handle visit n left right false)
      (t.assignSteps (visitIn v₀.context) n left right false) (Ahead t n v₀ A) :=
    Takes.ahead_of_clear hA fun B hB =>
      inside_assign hvisit hB (Tree.IsChild.below (h left (by simp))) n right false
  cases t.kind? left with
  | none => exact hassign
  | some kind =>
    cases kind with
    | variableDeclaration kind declarations =>
      have hhead : Takes t handle (Ahead t n v₀ A)
          (if kind = .varDecl then skip else lift (nest .forLoop n false))
          (if kind = .varDecl then [] else [.enter .forLoop n false]) (Ahead t n v₀ A) := by
        split
        · exact Takes.skip
        · exact ahead_nest fun _ _ => rfl
      exact Takes.seq hhead (Takes.seq (hchild left (by simp))
        (Takes.ahead fun _ => inside_writeLoopDeclaration declarations right))
    | _ => exact hassign

theorem leaves_catch {param : Option NodeId} {body : NodeId} (hn : t.isProgram n = false)
    (hparam : ∀ p ∈ param, p ∈ t.childrenOf n) (hbody : body ∈ t.childrenOf n) :
    Leaves t handle n v₀ A (visitCatch t handle visit n param body)
      (t.catchSteps (visitIn v₀.context) n param body) := by
  have hbindings (B : List Anchored) (hB : Clear t n B) : Inside t handle v₀ B
      (each param.toList fun p => visitPattern t visit p fun x v => declareTarget handle x v.scope
        { kind := .catchClause, name := x.identifier, node := n } v)
      (param.toList.flatMap fun p => t.patternSteps (visitIn v₀.context) p fun x =>
        x.declare .current { kind := .catchClause, name := x.identifier, node := n }) :=
    Takes.each fun p hp => inside_visitPattern hvisit hB
      (Tree.IsChild.below (hparam p (Option.mem_toList.1 hp))) fun x =>
        inside_declareTarget (fun _ _ => rfl) x _
  have hbody : Takes t handle (Ahead t n v₀ A) (visit body) (visitIn v₀.context body)
      (Ahead t n v₀ A) :=
    Takes.ahead_of_clear hA fun B hB => inside_visit hvisit hB (.child hbody)
  refine leaves_of_ahead (Takes.of_eq (Takes.seq (ahead_nest fun _ _ => rfl)
    (Takes.seq (Takes.ahead_of_clear hA hbindings) (Takes.seq hbody (ahead_close hn)))) ?_)
  simp [Tree.catchSteps]

omit hvisit hA in
/-- The scope of a function's own name opens before that of the function. -/
theorem ahead_nameFunction (kind : NodeKind) :
    Takes t handle (Ahead t n v₀ A) (lift (nameFunction t handle n kind))
      (t.functionNameSteps n kind) (Ahead t n v₀ A) := by
  have hdeclare (id : NodeId) : Takes t handle (Ahead t n v₀ A)
      (lift fun v => v.declare t handle v.scope id { kind := .functionName, name := id, node := n })
      (t.declareAt .current id { kind := .functionName, name := id, node := n })
      (Ahead t n v₀ A) :=
    Takes.ahead fun _ => inside_declare (fun _ _ => rfl) id _
  have hnest : Takes t handle (Ahead t n v₀ A) (lift (nest .functionName n false))
      [.enter .functionName n false] (Ahead t n v₀ A) := ahead_nest fun _ _ => rfl
  cases kind with
  | functionDeclaration f =>
    obtain ⟨id, _, _, _, _⟩ := f
    cases id with
    | none => exact Takes.skip
    | some id => exact hdeclare id
  | functionExpression f =>
    obtain ⟨id, _, _, _, _⟩ := f
    cases id with
    | none => exact Takes.skip
    | some id => exact Takes.seq hnest (hdeclare id)
  | _ => exact Takes.skip

omit hvisit hA in
theorem ahead_nestFunction {strict : Visitor ν → Bool} {strict' : Bool}
    (hstrict : ∀ v, Ahead t n v₀ A v → strict v = strict') (isArrow : Bool) :
    Takes t handle (Ahead t n v₀ A) (lift fun v => v.nestFunction handle n (strict v) isArrow)
      (Tree.enterFunction n strict' isArrow) (Ahead t n v₀ A) := by
  have hnest : Takes t handle (Ahead t n v₀ A) (lift fun v => v.nest .function n (strict v))
      [.enter .function n strict'] (Ahead t n v₀ A) := ahead_nest hstrict
  cases isArrow with
  | true => exact hnest
  | false =>
    exact Takes.seq hnest
      (Takes.ahead fun _ => inside_declareName (fun _ _ => rfl) "arguments" none)

/-- A function leaves its scopes as the outline does. -/
theorem leaves_function {kind : NodeKind} (hkind : t.kind? n = some kind)
    (hn : t.isProgram n = false) :
    Leaves t handle n v₀ A (visitFunction t handle visit n kind)
      (t.functionSteps (visitIn v₀.context) v₀.context n kind) := by
  have hstrict (v : Visitor ν) (hv : Ahead t n v₀ A v) :
      (v.inMethod || t.isStrictFunction kind) =
        (v₀.context.inMethod || t.isStrictFunction kind) := by
    obtain ⟨fresh, hmoves, -⟩ := hv
    rw [← hmoves.context_eq]
    rfl
  have hparams (B : List Anchored) (hB : Clear t n B) : Inside t handle v₀ B
      (each (kind.functionParams?.getD []).zipIdx fun (param, index) =>
        visitParameter t handle visit n param index)
      ((kind.functionParams?.getD []).zipIdx.flatMap fun (param, index) =>
        t.patternSteps (visitIn v₀.context) param fun x =>
          x.declare .current (.ofParameter x.identifier n index x.rest)) := by
    refine Takes.each ?_
    rintro ⟨param, index⟩ hmem
    have hparam : param ∈ kind.functionParams?.getD [] :=
      (List.mem_zipIdx' hmem).2 ▸ List.getElem_mem _
    exact inside_parameter hvisit hB (Tree.IsChild.below (Tree.mem_childrenOf hkind
      (NodeKind.mem_children_of_functionParams? hparam))) index
  have hbody (B : List Anchored) (hB : Clear t n B) : Inside t handle v₀ B
      (each kind.functionBody?.toList (visitBody t visit))
      (kind.functionBody?.toList.flatMap fun body =>
        match t.kind? body with
        | some (.blockStatement statements) => statements.flatMap (visitIn v₀.context)
        | _ => visitIn v₀.context body) := by
    refine Takes.each fun body hmem => ?_
    exact inside_body hvisit hB (Tree.mem_childrenOf hkind
      (NodeKind.mem_children_of_functionBody? (Option.mem_toList.1 hmem)))
  have hassoc (a b c d e : Outline) : a ++ (b ++ (c ++ (d ++ e))) = a ++ b ++ c ++ d ++ e := by
    simp only [List.append_assoc]
  exact leaves_of_ahead (Takes.of_eq (Takes.seq (ahead_nameFunction kind)
    (Takes.seq (ahead_nestFunction hstrict _) (Takes.seq (Takes.ahead_of_clear hA hparams)
      (Takes.seq (Takes.ahead_of_clear hA hbody) (ahead_close hn))))) (hassoc ..))

/-- A class leaves its scope as the outline does. -/
theorem leaves_class {parts : Class} (hn : t.isProgram n = false)
    (hsuper : ∀ m ∈ parts.superClass, m ∈ t.childrenOf n) (hbody : parts.body ∈ t.childrenOf n)
    (isDeclaration : Bool) :
    Leaves t handle n v₀ A (visitClass t handle visit n isDeclaration parts)
      (t.classSteps (visitIn v₀.context) n isDeclaration parts) := by
  have hnamed : Takes t handle (Ahead t n v₀ A) (nameClass t handle n parts.id) _
      (Ahead t n v₀ A) := Takes.ahead fun _ => inside_nameClass parts.id
  have hsuper : Takes t handle (Ahead t n v₀ A) (each parts.superClass.toList visit) _
      (Ahead t n v₀ A) := Takes.ahead_of_clear hA fun B hB => inside_each hvisit hB fun m hm =>
    .child (hsuper m (Option.mem_toList.1 hm))
  have hbody : Takes t handle (Ahead t n v₀ A) (visit parts.body) _ (Ahead t n v₀ A) :=
    Takes.ahead_of_clear hA fun B hB => inside_visit hvisit hB (.child hbody)
  have hnest : Takes t handle (Ahead t n v₀ A) (lift (nest .classBody n true))
      [.enter .classBody n true] (Ahead t n v₀ A) := ahead_nest fun _ _ => rfl
  have hinner := Takes.seq hnest (Takes.seq hnamed
    (Takes.seq hsuper (Takes.seq hbody (ahead_close hn))))
  cases isDeclaration with
  | true =>
    refine leaves_of_ahead (Takes.of_eq (Takes.seq hnamed hinner) ?_)
    simp [Tree.classSteps]
  | false =>
    refine leaves_of_ahead (Takes.of_eq hinner ?_)
    simp [Tree.classSteps]

section Kinds

variable {kind : NodeKind} (hkind : t.kind? n = some kind)
include hkind

/-- The stages at a node, one case for each kind of node with rules of its own. -/
theorem leaves_visitKind : Leaves t handle n v₀ A (visitKind t handle visit n kind)
    (t.stepsOfKind visitIn v₀.context n kind) := by
  have hmem {m : NodeId} (hm : m ∈ kind.children) : m ∈ t.childrenOf n :=
    Tree.mem_childrenOf hkind hm
  have hchild (B : List Anchored) (hB : Clear t n B) (m : NodeId) (hm : m ∈ kind.children) :
      Inside t handle v₀ B (visit m) (visitIn v₀.context m) :=
    inside_visit hvisit hB (.child (hmem hm))
  have hchildren (B : List Anchored) (hB : Clear t n B) (nodes : List NodeId)
      (h : ∀ m ∈ nodes, m ∈ kind.children) :
      Inside t handle v₀ B (each nodes visit) (nodes.flatMap (visitIn v₀.context)) :=
    inside_each hvisit hB fun m hm => .child (hmem (h m hm))
  have hkey (key : NodeId) (computed : Bool) (hm : key ∈ kind.children) :
      Inside t handle v₀ A (visitIf visit computed key)
        (if computed then visitIn v₀.context key else []) :=
    inside_visitIf hvisit hA (.child (hmem hm))
  have hplain (hprogram : kind.isProgram = false) : t.isProgram n = false := by
    rw [Tree.isProgram, hkind, Option.any_some, hprogram]
  cases kind with
  | identifier name => exact Inside.leaves (inside_referPlain rfl)
  | thisExpression => exact Inside.leaves inside_markThis
  | privateIdentifier name | superExpression => exact Inside.leaves Takes.skip
  | metaProperty object key => exact Inside.leaves Takes.skip
  | breakStatement label | continueStatement label => exact Inside.leaves Takes.skip
  | exportAllDeclaration exported source => exact Inside.leaves Takes.skip
  | assignmentExpression operator left right =>
    refine Inside.leaves (Inside.seq ?_ (hchild A hA right (by simp [NodeKind.children])))
    refine .ite (fun _ => .ite (fun _ => ?_) fun _ => ?_) fun _ => ?_
    · exact inside_assign hvisit hA
        (Tree.IsChild.below (hmem (by simp [NodeKind.children]))) n right true
    · exact inside_update left (some right)
    · exact hchild A hA left (by simp [NodeKind.children])
  | updateExpression operator isPrefix argument =>
    refine Inside.leaves (.ite (fun _ => ?_) fun _ => ?_)
    · exact inside_update argument none
    · exact hchild A hA argument (by simp [NodeKind.children])
  | memberExpression object key computed _ =>
    exact Inside.leaves (Inside.seq (hchild A hA object (by simp [NodeKind.children]))
      (hkey key computed (by simp [NodeKind.children])))
  | property p =>
    exact Inside.leaves (Inside.seq (hkey p.key p.computed (by simp [NodeKind.children]))
      (hchild A hA p.value (by simp [NodeKind.children])))
  | methodDefinition m =>
    exact Inside.leaves (Inside.seq (hkey m.key m.computed (by simp [NodeKind.children]))
      (inside_visitMethod hvisit hA (.child (hmem (by simp [NodeKind.children])))))
  | propertyDefinition p =>
    refine Inside.leaves (Inside.seq (hkey p.key p.computed (by simp [NodeKind.children]))
      (Takes.each fun value hvalue => ?_))
    exact inside_visitField hvisit hA (.child (hmem (List.mem_cons_of_mem _ hvalue)))
  | staticBlock body =>
    exact leaves_scoped hA (hplain rfl) .staticBlock fun B hB => hchildren B hB body fun _ hm => hm
  | labeledStatement label body =>
    exact Inside.leaves (hchild A hA body (by simp [NodeKind.children]))
  | blockStatement body =>
    exact leaves_scoped hA (hplain rfl) .block fun B hB => hchildren B hB body fun _ hm => hm
  | forStatement start test update body =>
    exact leaves_of_ahead (Takes.of_eq (Takes.seq (ahead_nestIf _ .forLoop) (Takes.seq
      (Takes.ahead_of_clear hA fun B hB => hchildren B hB _ fun _ hm => hm)
      (ahead_close (hplain rfl)))) (List.append_assoc _ _ _).symm)
  | forInStatement left right body | forOfStatement left right body _ =>
    exact leaves_loop hvisit hA (hplain rfl) fun m hm => hmem hm
  | switchStatement discriminant cases =>
    exact leaves_scopedRest hvisit hA (hplain rfl) .switchBody
      (.child (hmem (List.mem_cons_self ..)))
      fun B hB => hchildren B hB cases fun _ hm => List.mem_cons_of_mem _ hm
  | withStatement object body =>
    exact leaves_scopedRest hvisit hA (hplain rfl) .withBody
      (.child (hmem (List.mem_cons_self ..)))
      fun B hB => hchild B hB body (by simp [NodeKind.children])
  | catchClause param body =>
    exact leaves_catch hvisit hA (hplain rfl)
      (fun p hp => hmem (List.mem_append_left _ (Option.mem_toList.2 hp)))
      (hmem (by simp [NodeKind.children]))
  | variableDeclaration kind declarations =>
    exact Inside.leaves (inside_declaration hvisit hA fun d hd => hmem hd)
  | functionDeclaration f => exact leaves_function hvisit hA hkind (hplain rfl)
  | functionExpression f => exact leaves_function hvisit hA hkind (hplain rfl)
  | arrowFunctionExpression f => exact leaves_function hvisit hA hkind (hplain rfl)
  | classDeclaration parts =>
    exact leaves_class hvisit hA (hplain rfl)
      (fun m hm => hmem (by simp [NodeKind.children, Option.mem_def.1 hm]))
      (hmem (by simp [NodeKind.children])) true
  | classExpression parts =>
    exact leaves_class hvisit hA (hplain rfl)
      (fun m hm => hmem (by simp [NodeKind.children, Option.mem_def.1 hm]))
      (hmem (by simp [NodeKind.children])) false
  | importDeclaration specifiers source kind =>
    refine Inside.leaves fun v hv => ?_
    have hmodule : v.isModule = v₀.context.isModule :=
      congrArg Context.isModule hv.1.context_eq
    unfold visitKind Tree.stepsOfKind
    dsimp only
    rw [hmodule]
    split
    · exact inside_import specifiers kind v hv
    · exact ⟨n, rfl, rfl⟩
  | exportNamedDeclaration declaration specifiers source =>
    cases source with
    | some source => exact Inside.leaves Takes.skip
    | none =>
      cases declaration with
      | none => exact Inside.leaves (hchildren A hA _ fun _ hm => hm)
      | some declaration =>
        exact Inside.leaves (hchild A hA declaration (by simp [NodeKind.children]))
  | exportSpecifier localName exported =>
    exact Inside.leaves (hchild A hA localName (by simp [NodeKind.children]))
  | _ => exact Inside.leaves (hchildren A hA _ fun _ hm => hm)

end Kinds

end Visits

/-- A visit takes the steps of the outline, whatever the node. -/
theorem agrees_visitWithin {fuel : Nat} (hv : v.Holds t A) (hA : Clear t n A) :
    Agrees t handle v (t.stepsWithin fuel v.context n) (Left t n v A)
      (visitWithin t handle fuel n v) := by
  induction fuel generalizing n v A with
  | zero => exact ⟨rfl, rfl, hv.stands.left⟩
  | succ fuel ih =>
    rw [visitWithin, Tree.stepsWithin]
    cases hkind : t.kind? n with
    | none => exact ⟨rfl, rfl, hv.stands.left⟩
    | some kind =>
      have hvisit : VisitsBelow t handle n (t.stepsWithin fuel) (visitWithin t handle fuel) :=
        fun m _ v A hv hA => ih hv hA
      exact leaves_visitKind hvisit hA hkind v hv.stands

/-- A visit takes the steps of the outline at the node, if nothing further down holds a scope
open, and leaves the node. -/
theorem agrees_visit (hv : v.Holds t A) (hA : Clear t n A) :
    Agrees t handle v (t.steps v.context n) (Left t n v A) (visit t handle n v) :=
  agrees_visitWithin hv hA

end LexicalScope.Visitor
