import LexicalScope.Proofs.Trace
import LexicalScope.Scope.Outline

/-!
Outlines are well bracketed. The steps at a node open scopes anchored at that node only, apart
from those that its children open and close, and leave them behind closed. A field initializer
is anchored at the node of its value, so leaving the value may already close it.
-/
namespace LexicalScope

/-- Regular steps may follow each other. -/
theorem Regular.append {ν : Type} {t : Tree} {arguments : ν} {steps steps' : List (Step ν)}
    (h : Regular t arguments steps) (h' : Regular t arguments steps') :
    Regular t arguments (steps ++ steps') := by
  induction h with
  | nil => exact h'
  | enter hglobal hfunction _ ih => exact .enter hglobal hfunction ih
  | enterFunction _ ih => exact .enterFunction ih
  | leave hblock _ ih => exact .leave hblock ih
  | declare _ ih => exact .declare ih
  | refer _ ih => exact .refer ih
  | this _ ih => exact .this ih
  | misplacedImport _ ih => exact .misplacedImport ih

/-- Renaming keeps a walk regular. -/
theorem Regular.mapName {ν μ : Type} {t : Tree} {arguments : ν} {steps : List (Step ν)}
    (f : ν → μ) (h : Regular t arguments steps) :
    Regular t (f arguments) (steps.map (.mapName f)) := by
  induction h with
  | nil => exact .nil
  | enter hglobal hfunction _ ih => exact .enter hglobal hfunction ih
  | enterFunction _ ih => exact .enterFunction ih
  | leave hblock _ ih => exact .leave hblock ih
  | declare _ ih => exact .declare ih
  | refer _ ih => exact .refer ih
  | this _ ih => exact .this ih
  | misplacedImport _ ih => exact .misplacedImport ih

theorem Step.blocksAfter_mapName {ν μ : Type} (f : ν → μ) (blocks : List NodeId)
    (step : Step ν) : (step.mapName f).blocksAfter blocks = step.blocksAfter blocks := by
  cases step <;> rfl

/-- Renaming leaves the blocks around each step. -/
theorem foldl_blocksAfter_mapName {ν μ : Type} (f : ν → μ) (steps : List (Step ν))
    (blocks : List NodeId) :
    (steps.map (.mapName f)).foldl Step.blocksAfter blocks =
      steps.foldl Step.blocksAfter blocks := by
  rw [List.foldl_map]
  simp only [Step.blocksAfter_mapName]

/-- No scope is anchored below `n`. -/
def Above (n : NodeId) (blocks : List NodeId) : Prop :=
  ∀ b ∈ blocks, n.index ≤ b.index

/-- Steps below `n` find the scopes anchored at `n` and above as they left them. -/
structure Inside (t : Tree) (n : NodeId) (steps : Outline) : Prop where
  regular : Regular t "arguments" steps
  blocks_eq : ∀ blocks, Above n blocks → steps.foldl Step.blocksAfter blocks = blocks

/-- Steps that open some scopes anchored at `n`. -/
structure Opens (t : Tree) (n : NodeId) (steps : Outline) : Prop where
  regular : Regular t "arguments" steps
  blocks_eq : ∀ blocks, Above n blocks →
    ∃ k, steps.foldl Step.blocksAfter blocks = List.replicate k n ++ blocks

/-- All steps at a node and below it. -/
structure Whole (t : Tree) (n : NodeId) (steps : Outline) : Prop where
  regular : Regular t "arguments" steps
  blocks_eq : ∀ blocks, Above n blocks → steps.foldl Step.blocksAfter blocks = blocks ∨
    steps.foldl Step.blocksAfter blocks = blocks.dropWhile (· = n)

theorem Above.replicate {n : NodeId} {blocks : List NodeId} (h : Above n blocks) (k : Nat) :
    Above n (List.replicate k n ++ blocks) := by
  intro b hb
  rcases List.mem_append.1 hb with hb | hb
  · rw [List.eq_of_mem_replicate hb]
  · exact h b hb

variable {t : Tree} {n m : NodeId} {steps steps' : Outline}

namespace Inside

theorem nil : Inside t n [] :=
  ⟨.nil, fun _ _ => rfl⟩

theorem append (h : Inside t n steps) (h' : Inside t n steps') : Inside t n (steps ++ steps') where
  regular := h.regular.append h'.regular
  blocks_eq blocks hblocks := by
    rw [List.foldl_append, h.blocks_eq blocks hblocks, h'.blocks_eq blocks hblocks]

/-- Steps inside `n` may be put together. -/
theorem flatMap {α : Type} {l : List α} {f : α → Outline} (h : ∀ x ∈ l, Inside t n (f x)) :
    Inside t n (l.flatMap f) := by
  induction l with
  | nil => exact nil
  | cons x l ih =>
    rw [List.flatMap_cons]
    exact (h x (List.mem_cons_self ..)).append (ih fun y hy => h y (List.mem_cons_of_mem _ hy))

theorem map {α : Type} {l : List α} {f : α → Step String} (h : ∀ x, Inside t n [f x]) :
    Inside t n (l.map f) := by
  rw [← List.flatMap_singleton' (l.map f), List.flatMap_map]
  exact flatMap fun x _ => h x

theorem ite {p : Prop} [Decidable p] (h : Inside t n steps) (h' : Inside t n steps') :
    Inside t n (if p then steps else steps') := by
  split
  · exact h
  · exact h'

theorem elim {α : Type} {o : Option α} {f : α → Outline} (h : ∀ x, Inside t n (f x)) :
    Inside t n (o.elim [] f) := by
  cases o with
  | none => exact nil
  | some x => exact h x

theorem declare (place : Place) (name : String) (d : Definition) :
    Inside t n [.declare place name (some d)] :=
  ⟨.declare .nil, fun _ _ => rfl⟩

theorem refer (o : Occurrence String) : Inside t n [.refer o] :=
  ⟨.refer .nil, fun _ _ => rfl⟩

theorem this : Inside t n [.this] :=
  ⟨.this .nil, fun _ _ => rfl⟩

theorem misplacedImport (declaration : NodeId) : Inside t n [.misplacedImport declaration] :=
  ⟨.misplacedImport .nil, fun _ _ => rfl⟩

theorem opens (h : Inside t n steps) : Opens t n steps :=
  ⟨h.regular, fun blocks hblocks => ⟨0, h.blocks_eq blocks hblocks⟩⟩

theorem whole (h : Inside t n steps) : Whole t n steps :=
  ⟨h.regular, fun blocks hblocks => .inl (h.blocks_eq blocks hblocks)⟩

end Inside

/-- No scope anchored below `n` is open around it, so there is none to leave. -/
theorem dropWhile_eq_self (hlt : m.index < n.index) {blocks : List NodeId}
    (hblocks : Above n blocks) : blocks.dropWhile (· = m) = blocks := by
  cases blocks with
  | nil => rfl
  | cons b blocks =>
    have hne : b ≠ m := by
      rintro rfl
      have hle := hblocks b (List.mem_cons_self ..)
      omega
    simp [hne]

/-- What happens at a node does not show further up. -/
theorem Whole.inside (h : Whole t m steps) (hlt : m.index < n.index) : Inside t n steps where
  regular := h.regular
  blocks_eq blocks hblocks := by
    have habove : Above m blocks := fun b hb => Nat.le_trans (Nat.le_of_lt hlt) (hblocks b hb)
    rcases h.blocks_eq blocks habove with heq | heq
    · exact heq
    · exact heq.trans (dropWhile_eq_self hlt hblocks)

namespace Opens

theorem append (h : Opens t n steps) (h' : Opens t n steps') : Opens t n (steps ++ steps') where
  regular := h.regular.append h'.regular
  blocks_eq blocks hblocks := by
    obtain ⟨k, hk⟩ := h.blocks_eq blocks hblocks
    obtain ⟨k', hk'⟩ := h'.blocks_eq _ (hblocks.replicate k)
    refine ⟨k' + k, ?_⟩
    rw [List.foldl_append, hk, hk', ← List.append_assoc, List.replicate_append_replicate]

theorem enter {kind : ScopeKind} (hglobal : kind ≠ .global) (hfunction : kind ≠ .function)
    (strict : Bool) : Opens t n [.enter kind n strict] where
  regular := .enter hglobal (fun h => absurd h hfunction) .nil
  blocks_eq _ _ := ⟨1, rfl⟩

/-- The scope of a function is opened at the function, with `arguments` in it where it needs them.
-/
theorem enterFunction (strict : Bool) {isArrow : Bool} (harrow : isArrow → t.isArrow n) :
    Opens t n (Tree.enterFunction n strict isArrow) where
  regular := by
    cases isArrow with
    | false => exact .enterFunction .nil
    | true => exact .enter (by decide) (fun _ => harrow rfl) .nil
  blocks_eq _ _ := ⟨1, by cases isArrow <;> rfl⟩

theorem ite {p : Prop} [Decidable p] (h : Opens t n steps) (h' : Opens t n steps') :
    Opens t n (if p then steps else steps') := by
  split
  · exact h
  · exact h'

/-- Leaving a node closes what the steps there have opened. -/
theorem leave (h : Opens t n steps) (hn : n ≠ t.root) : Whole t n (steps ++ [.leave n]) where
  regular := h.regular.append (.leave hn .nil)
  blocks_eq blocks hblocks := by
    obtain ⟨k, hk⟩ := h.blocks_eq blocks hblocks
    right
    rw [List.foldl_append, hk]
    show (List.replicate k n ++ blocks).dropWhile (· = n) = _
    rw [List.dropWhile_append_of_pos]
    intro b hb
    rw [List.eq_of_mem_replicate hb, decide_eq_true rfl]

end Opens

/-- A scope around everything that happens inside a node. -/
theorem Inside.scoped (h : Inside t n steps) {kind : ScopeKind} (hglobal : kind ≠ .global)
    (hfunction : kind ≠ .function) (hn : n ≠ t.root) :
    Whole t n (.enter kind n false :: steps ++ [.leave n]) := by
  have henter : Opens t n [.enter kind n false] := .enter hglobal hfunction false
  exact (henter.append h.opens).leave hn

/-- A scope anchored at a child, around that child. -/
theorem Whole.scoped (h : Whole t m steps) {kind : ScopeKind} (hglobal : kind ≠ .global)
    (hfunction : kind ≠ .function) (hm : m ≠ t.root) (hlt : m.index < n.index) :
    Inside t n (.enter kind m false :: steps ++ [.leave m]) where
  regular := (Regular.enter hglobal (fun h => absurd h hfunction) h.regular).append (.leave hm .nil)
  blocks_eq blocks hblocks := by
    have habove : Above m (m :: blocks) := by
      intro b hb
      rcases List.mem_cons.1 hb with rfl | hb
      · exact Nat.le_refl _
      · exact Nat.le_trans (Nat.le_of_lt hlt) (hblocks b hb)
    have hdrop : blocks.dropWhile (· = m) = blocks := dropWhile_eq_self hlt hblocks
    rw [List.foldl_append, List.foldl_cons]
    show List.dropWhile (· = m) (steps.foldl Step.blocksAfter (m :: blocks)) = blocks
    have hself : List.dropWhile (· = m) (m :: blocks) = blocks := by
      rw [List.dropWhile_cons, if_pos (decide_eq_true rfl), hdrop]
    rcases h.blocks_eq _ habove with heq | heq
    · rw [heq, hself]
    · rw [heq, hself, hdrop]

theorem Tree.kind?_root_of_program {body : List NodeId} {sourceType : SourceType}
    (hroot : t.rootKind = .program body sourceType) :
    t.kind? t.root = some (.program body sourceType) := by
  rw [← hroot]
  simp [Tree.kind?, Tree.node?, Tree.rootKind, t.root_lt]

/-- An outline is that of a program: its scopes, then its body. -/
theorem Tree.exists_program_of_outline? {o : LanguageOptions} {outline : Outline}
    (h : t.outline? o = some outline) : ∃ body sourceType,
      t.rootKind = .program body sourceType ∧ outline = t.enterProgram o sourceType ++
        body.flatMap (t.steps { isModule := o.isModuleFor sourceType }) ++ [.leave t.root] := by
  unfold Tree.outline? at h
  split at h
  · next body sourceType hroot => exact ⟨body, sourceType, hroot, (Option.some.inj h).symm⟩
  · cases h

theorem Tree.index_lt_of_mem_children {kind : NodeKind} (hkind : t.kind? n = some kind) {c : NodeId}
    (hc : c ∈ kind.children) : c.index < n.index := by
  simp only [Tree.kind?, Tree.node?, Option.map_eq_some_iff, Array.getElem?_eq_some_iff] at hkind
  obtain ⟨node, ⟨hlt, rfl⟩, rfl⟩ := hkind
  exact t.childrenBelow n.index hlt c hc

/-- The right-hand nodes of a pattern stand below it. -/
theorem Pattern.index_lt_of_mem_rightHand {root : NodeId} {fuel : Nat} {s : Surroundings}
    (hm : m ∈ (walkWithin t root fuel s n).rightHand) : m.index < n.index := by
  induction fuel generalizing s n with
  | zero => cases hm
  | succ fuel ih =>
    rw [walkWithin] at hm
    cases hkind : t.kind? n with
    | none => simp [hkind] at hm
    | some kind =>
      rw [hkind, Option.elim_some] at hm
      have hchild (c : NodeId) (hc : c ∈ kind.children) : c.index < n.index :=
        Tree.index_lt_of_mem_children hkind hc
      have hwalk (s : Surroundings) (c : NodeId) (hc : c ∈ kind.children)
          (hm : m ∈ (walkWithin t root fuel s c).rightHand) : m.index < n.index :=
        Nat.lt_trans (ih hm) (hchild c hc)
      unfold ofKind at hm
      split at hm
      case h_1 => cases hm
      case h_2 p =>
        rcases List.mem_append.1 hm with hm | hm
        · change m ∈ (if p.computed then [p.key] else []) at hm
          split at hm
          · exact hchild m (List.mem_singleton.1 hm ▸ by simp [NodeKind.children])
          · cases hm
        · exact hwalk s p.value (by simp [NodeKind.children]) hm
      case h_3 left right =>
        rcases List.mem_append.1 hm with hm | hm
        · exact hwalk _ left (by simp [NodeKind.children]) hm
        · exact hchild m (List.mem_singleton.1 hm ▸ by simp [NodeKind.children])
      case h_4 left right =>
        rcases List.mem_append.1 hm with hm | hm
        · exact hwalk _ left (by simp [NodeKind.children]) hm
        · exact hchild m (List.mem_singleton.1 hm ▸ by simp [NodeKind.children])
      case h_5 argument => exact hwalk _ argument (by simp [NodeKind.children]) hm
      case h_6 object key computed _ =>
        apply hchild m
        change m ∈ (if computed then [key, object] else [object]) at hm
        cases computed <;> simp_all [NodeKind.children, or_comm]
      case h_7 callee arguments _ =>
        rcases List.mem_append.1 hm with hm | hm
        · exact hchild m (List.mem_cons_of_mem _ hm)
        · exact hwalk s callee (List.mem_cons_self ..) hm
      case h_8 =>
        obtain ⟨p, hp, hm⟩ := List.mem_flatMap.1 hm
        obtain ⟨c, hc, rfl⟩ := List.mem_map.1 hp
        exact hwalk s c hc hm

theorem inside_declareAt (place : Place) (id : NodeId) (d : Definition) :
    Inside t n (t.declareAt place id d) :=
  .elim fun name => .declare place name d

theorem inside_updateAt (m : NodeId) (writeExpr : Option NodeId) :
    Inside t n (t.updateAt m writeExpr) :=
  .elim fun _ => .refer _

theorem inside_defaultWrites (x : PatternTarget) (init : Bool) (assignment : Option NodeId) :
    Inside t n (x.defaultWrites init assignment) :=
  .map fun _ => .refer _

theorem inside_declareTarget (x : PatternTarget) (place : Place) (d : Definition) :
    Inside t n (x.declare place d) :=
  (Inside.declare place x.name d).append (inside_defaultWrites x true none)

theorem inside_importSteps (declaration : NodeId) (specifiers : List NodeId) (kind : ImportKind) :
    Inside t n (t.importSteps declaration specifiers kind) := by
  apply Inside.flatMap
  intro specifier _
  split
  · exact inside_declareAt _ _ _
  · exact .nil

section Steps

variable {visit : NodeId → Outline} (hvisit : ∀ m : NodeId, m.index < n.index →
  Inside t n (visit m))
include hvisit

theorem inside_toList {o : Option NodeId} (ho : ∀ m ∈ o, m.index < n.index) :
    Inside t n (o.toList.flatMap visit) :=
  .flatMap fun m hm => hvisit m (ho m (Option.mem_toList.1 hm))

theorem inside_patternSteps {pattern : NodeId} (hpattern : pattern.index < n.index)
    {target : PatternTarget → Outline} (htarget : ∀ x, Inside t n (target x)) :
    Inside t n (t.patternSteps visit pattern target) := by
  refine (Inside.flatMap fun x _ => htarget x).append (.flatMap fun m hm => hvisit m ?_)
  exact Nat.lt_trans (Pattern.index_lt_of_mem_rightHand hm) hpattern

theorem inside_assignSteps {left : NodeId} (hleft : left.index < n.index)
    (assignment right : NodeId) (whole : Bool) :
    Inside t n (t.assignSteps visit assignment left right whole) :=
  inside_patternSteps hvisit hleft fun x =>
    (inside_defaultWrites x false (some assignment)).append (.refer _)

theorem inside_declaratorSteps {declarator : NodeId} (hdeclarator : declarator.index < n.index)
    (declaration : NodeId) (kind : VariableKind) (index : Nat) :
    Inside t n (t.declaratorSteps visit declaration declarator kind index) := by
  unfold Tree.declaratorSteps
  split
  · next id init hkind =>
    have hchild (m : NodeId) (hm : m ∈ id :: init.toList) : m.index < n.index :=
      Nat.lt_trans (Tree.index_lt_of_mem_children hkind hm) hdeclarator
    refine Inside.append (inside_patternSteps hvisit (hchild id (List.mem_cons_self ..)) ?_)
      (inside_toList hvisit fun m hm => hchild m (List.mem_cons_of_mem _ (Option.mem_toList.2 hm)))
    exact fun x => (inside_declareTarget x _ _).append (.map fun _ => .refer _)
  · exact .nil

/-- The head of a loop opens a scope at most, which is anchored at the loop. -/
theorem opens_loopHead {left right : NodeId} (hleft : left.index < n.index) :
    Opens t n
      (match t.kind? left with
      | some (.variableDeclaration kind declarations) =>
        (if kind = .varDecl then [] else [.enter .forLoop n false]) ++
          visit left ++ t.loopDeclarationWrites declarations right
      | _ => t.assignSteps visit n left right false) := by
  split
  · refine Opens.append (.append ?_ (hvisit left hleft).opens) ?_
    · split
      · exact Inside.nil.opens
      · exact .enter (by decide) (by decide) false
    · unfold Tree.loopDeclarationWrites
      split
      · exact (Inside.map fun _ => .refer _).opens
      · exact Inside.nil.opens
  · exact (inside_assignSteps hvisit hleft _ _ _).opens

/-- A loop leaves the scope that it opens. -/
theorem whole_loopSteps {left right body : NodeId} (hleft : left.index < n.index)
    (hright : right.index < n.index) (hbody : body.index < n.index) (hn : n ≠ t.root) :
    Whole t n (t.loopSteps visit n left right body) :=
  ((((opens_loopHead hvisit hleft).append (hvisit right hright).opens).append
    (hvisit body hbody).opens).leave hn)

/-- A `catch` clause leaves the scope that it opens. -/
theorem whole_catchSteps {param : Option NodeId} {body : NodeId}
    (hparam : ∀ m ∈ param, m.index < n.index) (hbody : body.index < n.index) (hn : n ≠ t.root) :
    Whole t n (t.catchSteps visit n param body) := by
  have hbindings : Inside t n (param.toList.flatMap fun p =>
      t.patternSteps visit p fun x =>
        x.declare .current { kind := .catchClause, name := x.identifier, node := n }) :=
    .flatMap fun p hp => inside_patternSteps hvisit (hparam p (Option.mem_toList.1 hp)) fun x =>
      inside_declareTarget x _ _
  have henter : Opens t n [.enter .catchClause n false] := .enter (by decide) (by decide) false
  exact ((henter.append hbindings.opens).append (hvisit body hbody).opens).leave hn

omit hvisit in
theorem opens_functionNameSteps (kind : NodeKind) : Opens t n (t.functionNameSteps n kind) := by
  unfold Tree.functionNameSteps
  split
  · exact (inside_declareAt _ _ _).opens
  · have henter : Opens t n [.enter .functionName n false] := .enter (by decide) (by decide) false
    exact henter.append (inside_declareAt _ _ _).opens
  · exact Inside.nil.opens

/-- A function leaves the scopes of its name and of its parameters. -/
theorem whole_functionSteps {kind : NodeKind} (hkind : t.kind? n = some kind) (c : Context)
    (hparams : ∀ m ∈ kind.functionParams?.getD [], m.index < n.index)
    (hbody : ∀ m ∈ kind.functionBody?, m.index < n.index) (hn : n ≠ t.root) :
    Whole t n (t.functionSteps visit c n kind) := by
  unfold Tree.functionSteps
  refine ((((opens_functionNameSteps kind).append (.enterFunction _ ?_)).append
    (Inside.flatMap ?_).opens).append (Inside.flatMap ?_).opens).leave hn
  · intro h
    rw [Tree.isArrow, hkind]
    cases kind <;> simp_all
  · rintro ⟨param, index⟩ hmem
    have hmem : param ∈ kind.functionParams?.getD [] := by
      rw [(List.mem_zipIdx' hmem).2]
      exact List.getElem_mem _
    exact inside_patternSteps hvisit (hparams param hmem) fun x => inside_declareTarget x _ _
  · intro body hmem
    have hlt := hbody body (Option.mem_toList.1 hmem)
    split
    · next statements hblock =>
      refine .flatMap fun m hm => hvisit m ?_
      exact Nat.lt_trans (Tree.index_lt_of_mem_children hblock hm) hlt
    · exact hvisit body hlt

/-- A class leaves the scope of its name and members. -/
theorem whole_classSteps {parts : Class} (hsuper : ∀ m ∈ parts.superClass, m.index < n.index)
    (hbody : parts.body.index < n.index) (isDeclaration : Bool) (hn : n ≠ t.root) :
    Whole t n (t.classSteps visit n isDeclaration parts) := by
  have hnamed : Inside t n (parts.id.toList.flatMap fun id =>
      t.declareAt .current id { kind := .className, name := id, node := n }) :=
    .flatMap fun _ _ => inside_declareAt _ _ _
  have houter : Opens t n (if isDeclaration then parts.id.toList.flatMap fun id =>
      t.declareAt .current id { kind := .className, name := id, node := n } else []) := by
    split
    · exact hnamed.opens
    · exact Inside.nil.opens
  have henter : Opens t n [.enter .classBody n true] := .enter (by decide) (by decide) true
  exact (((houter.append (henter.append hnamed.opens)).append
    (inside_toList hvisit hsuper).opens).append (hvisit parts.body hbody).opens).leave hn

end Steps

theorem NodeKind.mem_children_of_functionParams? {kind : NodeKind}
    (hm : m ∈ kind.functionParams?.getD []) : m ∈ kind.children := by
  unfold functionParams? at hm
  split at hm <;> simp_all [children]

theorem NodeKind.mem_children_of_functionBody? {kind : NodeKind}
    (hm : kind.functionBody? = some m) : m ∈ kind.children := by
  unfold functionBody? at hm
  split at hm <;> simp_all [children]

/-- The steps at a node, one case for each kind of node with rules of its own. -/
theorem whole_stepsOfKind {visitIn : Context → NodeId → Outline} {kind : NodeKind}
    (hwhole : ∀ c (m : NodeId), m.index < n.index → Whole t m (visitIn c m))
    (hkind : t.kind? n = some kind) (hn : n.index < t.root.index) (c : Context) :
    Whole t n (t.stepsOfKind visitIn c n kind) := by
  have hroot {m : NodeId} (hm : m.index ≤ n.index) : m ≠ t.root := by
    rintro rfl
    omega
  have hn := hroot (Nat.le_refl _)
  have hchild (m : NodeId) (hm : m ∈ kind.children) : m.index < n.index :=
    Tree.index_lt_of_mem_children hkind hm
  have hvisit (c : Context) (m : NodeId) (hm : m.index < n.index) : Inside t n (visitIn c m) :=
    (hwhole c m hm).inside hm
  have hvisitAll (l : List NodeId) (hl : ∀ m ∈ l, m ∈ kind.children) :
      Inside t n (l.flatMap (visitIn c)) :=
    .flatMap fun m hm => hvisit c m (hchild m (hl m hm))
  have hcomputed (computed : Bool) (key : NodeId) (hkey : key ∈ kind.children) :
      Inside t n (if computed then visitIn c key else []) :=
    .ite (hvisit c key (hchild key hkey)) .nil
  unfold Tree.stepsOfKind
  dsimp only
  split
  case h_1 => exact (Inside.refer _).whole
  case h_8 => exact Inside.this.whole
  case h_9 operator left right =>
    have hleft := hchild left (List.mem_cons_self ..)
    refine (Inside.append (.ite (.ite ?_ (inside_updateAt _ _)) (hvisit c left hleft))
      (hvisit c right (hchild right (by simp [NodeKind.children])))).whole
    exact inside_assignSteps (hvisit c) hleft n right true
  case h_10 argument =>
    have hargument := hchild argument (List.mem_singleton.2 rfl)
    exact (Inside.ite (inside_updateAt _ _) (hvisit c argument hargument)).whole
  case h_11 object key computed _ =>
    have hobject := hvisit c object (hchild object (List.mem_cons_self ..))
    exact (hobject.append (hcomputed computed key (by simp [NodeKind.children]))).whole
  case h_12 p =>
    have hkey := hcomputed p.computed p.key (by simp [NodeKind.children])
    exact (hkey.append (hvisit c p.value (hchild p.value (by simp [NodeKind.children])))).whole
  case h_13 m =>
    have hkey := hcomputed m.computed m.key (by simp [NodeKind.children])
    exact (hkey.append (hvisit _ m.value (hchild m.value (by simp [NodeKind.children])))).whole
  case h_14 p =>
    have hkey := hcomputed p.computed p.key (by simp [NodeKind.children])
    refine (hkey.append (.flatMap ?_)).whole
    intro value hvalue
    have hlt := hchild value (List.mem_cons_of_mem _ hvalue)
    exact (hwhole c value hlt).scoped (by decide) (by decide) (hroot (Nat.le_of_lt hlt)) hlt
  case h_15 body => exact (hvisitAll body fun _ hm => hm).scoped (by decide) (by decide) hn
  case h_16 label body => exact (hvisit c body (hchild body (by simp [NodeKind.children]))).whole
  case h_17 body => exact (hvisitAll body fun _ hm => hm).scoped (by decide) (by decide) hn
  case h_18 =>
    refine (Opens.append ?_ (hvisitAll _ fun _ hm => hm).opens).leave hn
    have henter : Opens t n [.enter .forLoop n false] := .enter (by decide) (by decide) false
    exact .ite henter Inside.nil.opens
  case h_19 left right body =>
    exact whole_loopSteps (hvisit c) (hchild left (by simp [NodeKind.children]))
      (hchild right (by simp [NodeKind.children])) (hchild body (by simp [NodeKind.children])) hn
  case h_20 left right body _ =>
    exact whole_loopSteps (hvisit c) (hchild left (by simp [NodeKind.children]))
      (hchild right (by simp [NodeKind.children])) (hchild body (by simp [NodeKind.children])) hn
  case h_21 discriminant cases =>
    have hdiscriminant := hvisit c discriminant (hchild discriminant (List.mem_cons_self ..))
    have hcases := hvisitAll cases fun m hm => List.mem_cons_of_mem _ hm
    have henter : Opens t n [.enter .switchBody n false] := .enter (by decide) (by decide) false
    exact (hdiscriminant.opens.append (henter.append hcases.opens)).leave hn
  case h_22 object body =>
    have hobject := hvisit c object (hchild object (List.mem_cons_self ..))
    have hbody := hvisit c body (hchild body (by simp [NodeKind.children]))
    have henter : Opens t n [.enter .withBody n false] := .enter (by decide) (by decide) false
    exact (hobject.opens.append (henter.append hbody.opens)).leave hn
  case h_23 param body =>
    refine whole_catchSteps (hvisit c) (fun m hm => hchild m ?_) (hchild body ?_) hn
    · exact List.mem_append_left _ (Option.mem_toList.2 hm)
    · simp [NodeKind.children]
  case h_24 kind declarations =>
    refine (Inside.flatMap ?_).whole
    rintro ⟨declarator, index⟩ hmem
    have hmem : declarator ∈ declarations := (List.mem_zipIdx' hmem).2 ▸ List.getElem_mem _
    exact inside_declaratorSteps (hvisit c) (hchild declarator hmem) n kind index
  case h_28 parts =>
    refine whole_classSteps (hvisit c) (fun m hm => hchild m ?_) (hchild parts.body ?_) true hn
    · exact List.mem_append_left _ (List.mem_append_right _ (Option.mem_toList.2 hm))
    · simp [NodeKind.children]
  case h_29 parts =>
    refine whole_classSteps (hvisit c) (fun m hm => hchild m ?_) (hchild parts.body ?_) false hn
    · exact List.mem_append_left _ (List.mem_append_right _ (Option.mem_toList.2 hm))
    · simp [NodeKind.children]
  case h_30 => exact (Inside.ite (inside_importSteps _ _ _) (.misplacedImport n)).whole
  case h_31 =>
    split
    · exact Inside.nil.whole
    · next declaration =>
      exact (hvisit c declaration (hchild declaration (by simp [NodeKind.children]))).whole
    · exact (hvisitAll _ fun _ hm => hm).whole
  case h_32 localName exported =>
    exact (hvisit c localName (hchild localName (by simp [NodeKind.children]))).whole
  case h_33 => exact (hvisitAll _ fun _ hm => hm).whole
  case h_25 | h_26 | h_27 =>
    refine whole_functionSteps (hvisit c) hkind c (fun m hm => hchild m ?_)
      (fun m hm => hchild m ?_) hn
    · exact NodeKind.mem_children_of_functionParams? hm
    · exact NodeKind.mem_children_of_functionBody? hm
  case h_2 | h_3 | h_4 | h_5 | h_6 | h_7 => exact Inside.nil.whole

/-- The steps below the root leave all scopes that they open. -/
theorem whole_stepsWithin (fuel : Nat) (c : Context) (hn : n.index < t.root.index) :
    Whole t n (t.stepsWithin fuel c n) := by
  induction fuel generalizing c n with
  | zero => exact Inside.nil.whole
  | succ fuel ih =>
    rw [Tree.stepsWithin]
    cases hkind : t.kind? n with
    | none => exact Inside.nil.whole
    | some kind =>
      exact whole_stepsOfKind (fun c m hm => ih c (Nat.lt_trans hm hn)) hkind hn c

/-- A program opens the global scope first. -/
theorem Tree.enterProgram_eq (o : LanguageOptions) (sourceType : SourceType) :
    ∃ strict steps, t.enterProgram o sourceType = .enter .global t.root strict :: steps ∧
      Opens t t.root steps := by
  refine ⟨_, _, rfl, .append (.ite (.enterFunction _ fun h => nomatch h) Inside.nil.opens)
    (.ite ?_ Inside.nil.opens)⟩
  exact .enter (by decide) (by decide) true

/-- An outline opens the global scope, takes regular steps that leave open only scopes anchored
at the root, and leaves the root. -/
theorem Tree.outline?_eq_some {o : LanguageOptions} {outline : Outline}
    (h : t.outline? o = some outline) :
    ∃ strict steps, outline = .enter .global t.root strict :: steps ++ [.leave t.root] ∧
      Regular t "arguments" steps ∧
      ∀ b ∈ steps.foldl Step.blocksAfter [t.root], b = t.root := by
  obtain ⟨body, sourceType, hroot, rfl⟩ := Tree.exists_program_of_outline? h
  have hkind := Tree.kind?_root_of_program hroot
  have hbody (c : Context) : Inside t t.root (body.flatMap (t.steps c)) := by
    apply Inside.flatMap
    intro m hm
    have hlt : m.index < t.root.index := Tree.index_lt_of_mem_children hkind hm
    exact (whole_stepsWithin _ _ hlt).inside hlt
  obtain ⟨strict, steps, henter, hopens⟩ := t.enterProgram_eq o sourceType
  have hsteps := hopens.append (hbody { isModule := o.isModuleFor sourceType }).opens
  obtain ⟨k, hk⟩ := hsteps.blocks_eq [t.root] fun b hb => by rw [List.mem_singleton.1 hb]
  refine ⟨strict, _, by rw [henter]; rfl, hsteps.regular, ?_⟩
  intro b hb
  rw [hk] at hb
  rcases List.mem_append.1 hb with hb | hb
  · exact List.eq_of_mem_replicate hb
  · exact List.mem_singleton.1 hb

/-- A cursor with nothing but the global scope open. -/
theorem walking_root {ν : Type} [DecidableEq ν] (t : Tree) (strict : Bool) :
    Walking t ((({} : Cursor ν)).enter .global t.root strict) [t.root] where
  walked := .root strict
  lt_size := Nat.zero_lt_one
  opened_eq :=
    ((ScopeGraph.rooted_root t.root strict).chain_outermost Nat.zero_lt_one
      (ScopeGraph.upper?_root t.root strict .global)).symm
  blocks_eq := rfl
  settled := ScopeGraph.settled_root t t.root strict

/-- The walk over a program comes to the point where only the global scope is open, and closes
it. Until then it keeps what every step keeps. -/
theorem WalkInvariant.ofSteps {ν : Type} [DecidableEq ν] {P : List (Located ν) → Cursor ν → Prop}
    (hP : WalkInvariant t P)
    (hroot : ∀ strict,
      P [⟨[], .enter .global t.root strict⟩] (({} : Cursor ν).enter .global t.root strict))
    {o : LanguageOptions} {outline : Outline} (h : t.outline? o = some outline) (f : String → ν) :
    ∃ g : ScopeGraph ν, Walking t ⟨g, [.global]⟩ [t.root] ∧
      (∀ s, g.BindsArguments t (f "arguments") s) ∧
      P ((Step.trace [] outline).map (.mapName f)) ⟨g, [.global]⟩ ∧
      ScopeGraph.ofSteps t (outline.map (.mapName f)) = g.closeScope t .global := by
  obtain ⟨strict, steps, rfl, hregular, hblocks⟩ := Tree.outline?_eq_some h
  have hempty (s : ScopeId) : ({} : ScopeGraph ν).BindsArguments t (f "arguments") s := by
    intro scope hs
    simp [ScopeGraph.getScope?] at hs
  have hkind : ScopeKind.global = .function → t.isArrow t.root := by
    intro h
    cases h
  have harguments := ScopeGraph.BindsArguments.openScope hempty hkind strict none
  obtain ⟨hwalking, hbinds, htrace⟩ :=
    hP.run (hregular.mapName f) (walking_root t strict) harguments (hroot strict)
  rw [foldl_blocksAfter_mapName] at hwalking
  obtain ⟨g, hg, hgbinds, hgtrace, hleave⟩ := hP.leaveAll_root hwalking hblocks hbinds htrace
  refine ⟨g, hg, hgbinds, ?_, ?_⟩
  · rw [← Step.trace_mapName, List.map_append, List.map_cons, List.cons_append, Step.trace,
      Step.trace_append]
    simpa [Step.trace, Step.mark, Step.mapName, Step.blocksAfter] using hgtrace
  · rw [ScopeGraph.ofSteps, Cursor.run, List.map_append, List.foldl_append]
    exact congrArg Cursor.graph hleave

theorem walkInvariant_true {ν : Type} [DecidableEq ν] :
    WalkInvariant t fun (_ : List (Located ν)) _ => True :=
  ⟨fun _ _ _ _ _ => trivial, fun _ _ _ => trivial, fun _ _ _ _ _ => trivial,
    fun _ _ _ => trivial, fun _ _ => trivial, fun _ _ _ => trivial⟩

/-- A walk over a program comes back to the global scope, and every function scope of it that is not
one of an arrow function has an `arguments`. -/
theorem exists_walking_ofSteps {ν : Type} [DecidableEq ν] {o : LanguageOptions}
    {outline : Outline} (h : t.outline? o = some outline) (f : String → ν) :
    ∃ g : ScopeGraph ν, Walking t ⟨g, [.global]⟩ [t.root] ∧
      (∀ s, g.BindsArguments t (f "arguments") s) ∧
      ScopeGraph.ofSteps t (outline.map (.mapName f)) = g.closeScope t .global := by
  obtain ⟨g, hwalking, hbinds, -, hsteps⟩ :=
    walkInvariant_true.ofSteps (fun _ => trivial) h f
  exact ⟨g, hwalking, hbinds, hsteps⟩

end LexicalScope
