import LexicalScope.Proofs.Composition
import LexicalScope.Proofs.Entered

/-!
Strictness in a trace. A scope is opened as strict as its kind and its block say, except for the
functions in a method, and a method stands in a class. So in the trace of a walk every other
strict scope opens while the scope of a class is open. The blocks alone do not tell this: a field
initializer is anchored at its value, which may be the class. Thus the order of steps counts.
-/
namespace LexicalScope

section Remains

variable {ν : Type}

/-- The last scope with this region is still open: all later steps lie inside it. -/
def Region.Remains (r : Region) (trace : List (Located ν)) : Prop :=
  ∃ before l after, trace = before ++ l :: after ∧ l.region? = some r ∧
    ∀ x ∈ after, r.blocks <:+ x.blocks

namespace Region

variable {r : Region} {trace trace' : List (Located ν)} {l : Located ν}

/-- A region remains open after one more step if the step opens it or stands inside it. -/
theorem remains_concat_iff : r.Remains (trace ++ [l]) ↔
    l.region? = some r ∨ r.Remains trace ∧ r.blocks <:+ l.blocks := by
  constructor
  · rintro ⟨before, x, after, heq, hx, hafter⟩
    rcases List.eq_nil_or_concat after with rfl | ⟨after, y, rfl⟩
    · obtain ⟨-, hlast⟩ := List.append_inj' heq rfl
      obtain rfl := List.singleton_inj.1 hlast
      exact .inl hx
    · rw [List.concat_eq_append] at heq hafter
      rw [← List.cons_append, ← List.append_assoc] at heq
      obtain ⟨htrace, hlast⟩ := List.append_inj' heq rfl
      obtain rfl := List.singleton_inj.1 hlast
      refine .inr ⟨⟨before, x, after, htrace, hx, fun z hz => ?_⟩, hafter l (by simp)⟩
      exact hafter z (List.mem_append_left _ hz)
  · rintro (hl | ⟨⟨before, x, after, rfl, hx, hafter⟩, hl⟩)
    · exact ⟨trace, l, [], rfl, hl, fun _ hx => nomatch hx⟩
    · refine ⟨before, x, after ++ [l], by simp, hx, fun z hz => ?_⟩
      rcases List.mem_append.1 hz with hz | hz
      · exact hafter z hz
      · rwa [List.mem_singleton.1 hz]

/-- Whether a region remains open depends on the end of a trace. -/
theorem Remains.append_left (h : r.Remains trace) : r.Remains (trace' ++ trace) := by
  obtain ⟨before, x, after, rfl, hx, hafter⟩ := h
  exact ⟨trace' ++ before, x, after, by rw [List.append_assoc], hx, hafter⟩

end Region

end Remains

section Accounted

variable {ν : Type} {own : ScopeKind → NodeId → Bool}

/-- A step that opens a scope as strict as `own` says. -/
def Located.IsPlain (own : ScopeKind → NodeId → Bool) (l : Located ν) : Prop :=
  ∀ kind block strict, l.step = .enter kind block strict → strict = own kind block

/-- Every scope is opened as strict as `own` says, or inside the scope of a class. -/
def Accounted (own : ScopeKind → NodeId → Bool) (trace : List (Located ν)) : Prop :=
  ∀ before l after, trace = before ++ l :: after →
    l.IsPlain own ∨ ∃ r : Region, r.kind = .classBody ∧ r.Remains before ∧ r.blocks <:+ l.blocks

namespace Accounted

variable {trace trace' : List (Located ν)}

theorem of_isPlain (h : ∀ l ∈ trace, l.IsPlain own) : Accounted own trace := by
  rintro before l after rfl
  exact .inl (h l (by simp))

theorem nil : Accounted own ([] : List (Located ν)) :=
  of_isPlain fun _ hl => absurd hl List.not_mem_nil

/-- Traces that account for their scopes may follow each other. -/
theorem append (h : Accounted own trace) (h' : Accounted own trace') :
    Accounted own (trace ++ trace') := by
  intro before l after heq
  have hsecond (before' : List (Located ν)) (hbefore : before = trace ++ before')
      (htrace' : trace' = before' ++ l :: after) : l.IsPlain own ∨
        ∃ r : Region, r.kind = .classBody ∧ r.Remains before ∧ r.blocks <:+ l.blocks := by
    subst hbefore
    refine (h' before' l after htrace').imp_right ?_
    rintro ⟨r, hr, hremains, hsuffix⟩
    exact ⟨r, hr, hremains.append_left, hsuffix⟩
  rcases List.append_eq_append_iff.1 heq with ⟨before', hbefore, htrace'⟩ | ⟨after', htrace, hl⟩
  · exact hsecond before' hbefore htrace'
  · cases after' with
    | nil => exact hsecond [] (by rw [htrace, List.append_nil, List.append_nil]) hl.symm
    | cons x after' =>
      obtain ⟨rfl, -⟩ := List.cons.inj hl
      exact h before l after' htrace

theorem flatMap {α : Type} {l : List α} {f : α → List (Step ν)}
    (h : ∀ x ∈ l, ∀ blocks, Accounted own (Step.trace blocks (f x))) (blocks : List NodeId) :
    Accounted own (Step.trace blocks (l.flatMap f)) := by
  induction l generalizing blocks with
  | nil => exact .nil
  | cons x l ih =>
    rw [List.flatMap_cons, Step.trace_append]
    exact (h x (List.mem_cons_self ..) blocks).append
      (ih (fun y hy => h y (List.mem_cons_of_mem _ hy)) _)

theorem of_append (h : Accounted own (trace ++ trace')) : Accounted own trace := by
  rintro before l after rfl
  exact h before l (after ++ trace') (by simp)

/-- Everything inside a class is accounted for. -/
theorem of_class {l : Located ν} {r : Region} (hl : l.IsPlain own) (hr : l.region? = some r)
    (hkind : r.kind = .classBody) (htrace : ∀ x ∈ trace, r.blocks <:+ x.blocks) :
    Accounted own (l :: trace) := by
  intro before x after heq
  cases before with
  | nil =>
    obtain ⟨rfl, -⟩ := List.cons.inj heq
    exact .inl hl
  | cons y before =>
    obtain ⟨rfl, rfl⟩ := List.cons.inj heq
    refine .inr ⟨r, hkind, ⟨[], l, before, rfl, hr, fun z hz => ?_⟩, ?_⟩
    · exact htrace z (List.mem_append_left _ hz)
    · exact htrace x (by simp)

theorem mapName {μ : Type} (f : ν → μ) (h : Accounted own trace) :
    Accounted own (trace.map (.mapName f)) := by
  intro before l after heq
  obtain ⟨before, rest, rfl, rfl, hrest⟩ := List.map_eq_append_iff.1 heq
  obtain ⟨l, after, rfl, rfl, rfl⟩ := List.map_eq_cons_iff.1 hrest
  rcases h before l after rfl with hl | ⟨r, hr, ⟨earlier, x, later, rfl, hx, hlater⟩, hsuffix⟩
  · left
    obtain ⟨blocks, step⟩ := l
    intro kind block strict hstep
    cases step with
    | enter => exact hl kind block strict (by cases hstep; rfl)
    | _ => cases hstep
  · refine .inr ⟨r, hr, ⟨_, x.mapName f, _, List.map_append, ?_, ?_⟩, hsuffix⟩
    · rw [x.region?_mapName, hx]
    · exact List.forall_mem_map.2 hlater

end Accounted

end Accounted

section Steps

variable {t : Tree} {n : NodeId} {visitIn : Context → NodeId → Outline} {c : Context}

def Step.Within (n : NodeId) : Step String → Prop
  | enter _ block _ | leave block => block.index ≤ n.index
  | _ => True

theorem Step.within_of_isStill {step : Step String} (h : step.IsStill) : step.Within n := by
  cases step <;> trivial

theorem Step.Within.mono {m : NodeId} {step : Step String} (h : step.Within m)
    (hle : m.index ≤ n.index) : step.Within n := by
  cases step <;> first | trivial | exact Nat.le_trans h hle

theorem composes_within
    (hvisit : ∀ c (m : NodeId), m.index < n.index → ∀ step ∈ visitIn c m, step.Within m) :
    t.Composes visitIn c n fun steps => ∀ step ∈ steps, step.Within n := by
  have hle {m : NodeId} (hm : m = n ∨ m ∈ t.childrenOf n) : m.index ≤ n.index := by
    rcases hm with rfl | hm
    · exact Nat.le_refl _
    · exact Nat.le_of_lt (Tree.index_lt_of_mem_childrenOf hm)
  exact {
    nil := List.forall_mem_nil _
    append := fun h h' => List.forall_mem_append.2 ⟨h, h'⟩
    still := fun h => List.forall_mem_singleton.2 (Step.within_of_isStill h)
    enter := fun hm _ => List.forall_mem_singleton.2 (hle hm)
    leave := fun hm => List.forall_mem_singleton.2 (hle hm)
    visit := fun _ hm step hstep =>
      (hvisit _ _ hm.index_lt step hstep).mono (Nat.le_of_lt hm.index_lt) }

/-- The steps at `n` open and close scopes of nodes at or below it only. -/
theorem within_stepsWithin (fuel : Nat) (c : Context) (n : NodeId) :
    ∀ step ∈ t.stepsWithin fuel c n, step.Within n := by
  induction fuel generalizing c n with
  | zero => exact List.forall_mem_nil _
  | succ fuel ih =>
    rw [Tree.stepsWithin]
    cases hkind : t.kind? n with
    | none => exact List.forall_mem_nil _
    | some kind => exact (composes_within fun c m _ => ih c m).stepsOfKind hkind

/-- A scope at `n` stays open until `n` is left. -/
theorem Step.suffix_of_mem_trace {steps : Outline} {outer blocks : List NodeId}
    (hleave : .leave n ∉ steps) (hblocks : n :: outer <:+ blocks) :
    ∀ x ∈ trace blocks steps, n :: outer <:+ x.blocks := by
  induction steps generalizing blocks with
  | nil => exact List.forall_mem_nil _
  | cons step steps ih =>
    have hafter : n :: outer <:+ step.blocksAfter blocks := by
      cases step with
      | enter kind block strict => exact hblocks.trans (List.suffix_cons ..)
      | leave block =>
        have hne : n ≠ block := fun h => hleave (h ▸ List.mem_cons_self ..)
        obtain ⟨inner, rfl⟩ := hblocks
        rw [blocksAfter, List.dropWhile_append]
        split
        · have hdrop : (n :: outer).dropWhile (· = block) = n :: outer :=
            List.dropWhile_cons_of_neg (by simpa using hne)
          exact hdrop.symm ▸ List.suffix_rfl
        · exact List.suffix_append ..
      | _ => exact hblocks
    intro x hx
    rw [trace, List.mem_append] at hx
    rcases hx with hx | hx
    · cases step with
      | leave => cases hx
      | _ => rwa [List.mem_singleton.1 hx]
    · exact ih (fun h => hleave (List.mem_cons_of_mem _ h)) hafter x hx

theorem Located.isPlain_of_isStill {own : ScopeKind → NodeId → Bool} {l : Located String}
    (h : l.step.IsStill) : l.IsPlain own := by
  intro kind block strict hstep
  rw [hstep] at h
  exact h.elim

/-- What opens in a class opens inside its scope. -/
theorem accounted_classSteps {own : ScopeKind → NodeId → Bool} (hown : own .classBody n = true)
    {visit : NodeId → Outline}
    (hvisit : ∀ m : NodeId, m.index < n.index → ∀ step ∈ visit m, step.Within m) {parts : Class}
    (hsuper : ∀ m ∈ parts.superClass, m.index < n.index) (hbody : parts.body.index < n.index)
    (isDeclaration : Bool) (blocks : List NodeId) :
    Accounted own (Step.trace blocks (t.classSteps visit n isDeclaration parts)) := by
  let named := parts.id.toList.flatMap fun id =>
    t.declareAt .current id { kind := .className, name := id, node := n }
  let inner := named ++ parts.superClass.toList.flatMap visit ++ visit parts.body
  have hsteps : t.classSteps visit n isDeclaration parts =
      (if isDeclaration then named else []) ++
        (.enter .classBody n true :: inner ++ [.leave n]) := by
    simp [Tree.classSteps, named, inner]
  have hnamed : ∀ step ∈ named, step.IsStill := by
    intro step hstep
    obtain ⟨id, -, hstep⟩ := List.mem_flatMap.1 hstep
    exact t.isStill_declareAt _ _ _ step hstep
  have hleave : .leave n ∉ inner := by
    intro hmem
    have hlt {m : NodeId} (hm : m.index < n.index) : .leave n ∉ visit m := fun hmem =>
      Nat.not_le_of_lt hm (hvisit m hm _ hmem)
    rcases List.mem_append.1 hmem with hmem | hmem
    · rcases List.mem_append.1 hmem with hmem | hmem
      · exact hnamed _ hmem
      · obtain ⟨m, hm, hmem⟩ := List.mem_flatMap.1 hmem
        exact hlt (hsuper m (Option.mem_toList.1 hm)) hmem
    · exact hlt hbody hmem
  rw [hsteps, Step.trace_append]
  refine .append (.of_isPlain fun l hl => Located.isPlain_of_isStill ?_) ?_
  · have hmem := Step.mem_of_mem_trace hl
    split at hmem
    · exact hnamed _ hmem
    · cases hmem
  · generalize List.foldl Step.blocksAfter blocks _ = outer
    rw [List.cons_append, Step.trace, Step.trace_append]
    refine .of_class (r := ⟨.classBody, n :: outer⟩) ?_ rfl rfl ?_
    · rintro kind block strict ⟨⟩
      exact hown.symm
    · intro x hx
      rw [show Step.trace _ [Step.leave n] = [] from rfl, List.append_nil] at hx
      exact Step.suffix_of_mem_trace hleave List.suffix_rfl x hx

end Steps

section Methods

namespace Tree

variable {t : Tree} {n m p : NodeId}

/-- Methods are listed by class bodies only, and these by classes only. -/
def MethodsInClasses (t : Tree) : Prop :=
  ∀ p, t.Below p t.root → ∀ m ∈ t.childrenOf p, t.isMethod m → t.isClassBody p ∧
    ∀ q, t.Below q t.root → p ∈ t.childrenOf q → t.isClass q

def allMethodsInClasses (t : Tree) : Bool :=
  (List.range t.size).all fun p => (t.childrenOf ⟨p⟩).all fun m => !t.isMethod m ||
    (t.isClassBody ⟨p⟩ &&
      (List.range t.size).all fun q => !(t.childrenOf ⟨q⟩).contains ⟨p⟩ || t.isClass ⟨q⟩)

/-- It suffices to test all nodes. -/
theorem methodsInClasses_of_all {t : Tree} (h : t.allMethodsInClasses) : t.MethodsInClasses := by
  simp only [allMethodsInClasses, List.all_eq_true, List.mem_range, Bool.or_eq_true,
    Bool.not_eq_true', Bool.and_eq_true] at h
  intro p _ m hm hmethod
  rcases h p.index (index_lt_size_of_mem_childrenOf hm) m hm with hnot | ⟨hbody, hclass⟩
  · rw [hnot] at hmethod
    cases hmethod
  · refine ⟨hbody, fun q _ hq => ?_⟩
    refine (hclass q.index (index_lt_size_of_mem_childrenOf hq)).resolve_left fun hnot => ?_
    rw [List.contains_iff_mem.2 hq] at hnot
    cases hnot

/-- A node that has no place outside of classes: a method, or what lists one. -/
def IsMember (t : Tree) (n : NodeId) : Prop :=
  t.isMethod n ∨ ∃ m ∈ t.childrenOf n, t.isMethod m

/-- Outside of classes nothing lists a member. -/
theorem MethodsInClasses.not_isMember (h : t.MethodsInClasses) (hp : t.Below p t.root)
    (hclass : t.isClass p = false) (hmember : ¬t.IsMember p ∨ t.isClassBody p = false)
    (hm : m ∈ t.childrenOf p) : ¬t.IsMember m := by
  rintro (hmethod | ⟨x, hx, hmethod⟩)
  · rcases hmember with hmember | hbody
    · exact hmember (.inr ⟨m, hm, hmethod⟩)
    · rw [(h p hp m hm hmethod).1] at hbody
      cases hbody
  · rw [(h m (.head hm hp) x hx hmethod).2 p hp hm] at hclass
    cases hclass

theorem MethodsInClasses.not_isMember_of_reaches (h : t.MethodsInClasses)
    (hn : t.Below n t.root) (hclass : t.isClass n = false) (hmember : ¬t.IsMember n)
    (hm : t.Reaches n m) : ¬t.IsMember m := by
  cases hm with
  | child hm => exact h.not_isMember hn hclass (.inl hmember) hm
  | through hbelow hordinary hm =>
    exact h.not_isMember (hbelow.trans hn) hordinary.1 (.inr hordinary.2) hm

/-- What makes a scope at the root strict, whatever its kind says: directives belong to the
function around a wrapped program, and implied strictness to the innermost scope. -/
def strictAtRoot (t : Tree) (o : LanguageOptions) (kind : ScopeKind) : Bool :=
  match t.rootKind with
  | .program _ sourceType =>
    (t.hasUseStrict t.root && kind = if o.globalReturnFor sourceType then .function else .global) ||
      (o.impliedStrict && (programScopes o sourceType).getLast? = some kind)
  | _ => false

def ownStrict (t : Tree) (o : LanguageOptions) (kind : ScopeKind) (n : NodeId) : Bool :=
  t.strictAt kind n || (n = t.root && t.strictAtRoot o kind)

variable {o : LanguageOptions}

theorem ownStrict_of_ne (hn : n ≠ t.root) (kind : ScopeKind) :
    t.ownStrict o kind n = t.strictAt kind n := by
  rw [ownStrict, decide_eq_false hn, Bool.false_and, Bool.or_false]

end Tree

section Visits

variable {t : Tree} {n : NodeId} {o : LanguageOptions} {visitIn : Context → NodeId → Outline}
  {c : Context}

/-- Outside of classes and methods nothing is strict but by itself. -/
theorem composes_accounted (hn : n.index < t.root.index) (hmethod : t.isMethod n = false)
    (hc : c.inMethod = false)
    (hvisit : ∀ c m, c.inMethod = false → t.Reaches n m →
      ∀ blocks, Accounted (t.ownStrict o) (Step.trace blocks (visitIn c m))) :
    t.Composes visitIn c n fun steps =>
      ∀ blocks, Accounted (t.ownStrict o) (Step.trace blocks steps) where
  nil _ := .nil
  append h h' blocks := by
    rw [Step.trace_append]
    exact (h blocks).append (h' _)
  still h blocks := by
    refine .of_isPlain fun l hl => Located.isPlain_of_isStill ?_
    rwa [List.mem_singleton.1 (Step.mem_of_mem_trace hl)]
  enter {kind m strict} hm hstrict blocks := by
    have hne : m ≠ t.root := by
      rintro rfl
      rcases hm with rfl | hm
      · omega
      · have hlt := Tree.index_lt_of_mem_childrenOf hm
        omega
    refine .of_isPlain fun l hl => ?_
    obtain rfl := List.mem_singleton.1 hl
    rintro _ _ _ ⟨⟩
    rw [Tree.ownStrict_of_ne hne, hstrict hc]
  leave _ _ := .nil
  visit {c' m} hc' hm := by
    refine hvisit c' m ?_ hm
    rw [Bool.eq_false_iff]
    intro h
    rcases hc' h with h | h
    · rw [hc] at h
      cases h
    · rw [hmethod] at h
      cases h

variable (hmethods : t.MethodsInClasses)
include hmethods

/-- A node outside of classes accounts for the scopes below it. -/
theorem accounted_stepsWithin {fuel : Nat} (hbelow : t.Below n t.root)
    (hn : n.index < t.root.index) (hmember : ¬t.IsMember n) (hc : c.inMethod = false)
    (blocks : List NodeId) :
    Accounted (t.ownStrict o) (Step.trace blocks (t.stepsWithin fuel c n)) := by
  induction fuel generalizing c n blocks with
  | zero => exact .nil
  | succ fuel ih =>
    rw [Tree.stepsWithin]
    cases hkind : t.kind? n with
    | none => exact .nil
    | some kind =>
      rw [Option.elim_some]
      cases hclass : t.isClass n with
      | false =>
        refine (composes_accounted hn ?_ hc fun c m hc hm => ?_).stepsOfKind hkind blocks
        · exact Bool.eq_false_iff.2 fun hmethod => hmember (.inl hmethod)
        · exact ih (hm.below.trans hbelow) (Nat.lt_trans hm.index_lt hn)
            (hmethods.not_isMember_of_reaches hbelow hclass hmember hm) hc
      | true =>
        have hchild (m : NodeId) (hm : m ∈ kind.children) : m.index < n.index :=
          Tree.index_lt_of_mem_children hkind hm
        have hsteps (parts : Class) (isDeclaration : Bool) (hparts : kind.children =
            parts.id.toList ++ parts.superClass.toList ++ [parts.body]) :
            Accounted (t.ownStrict o) (Step.trace blocks
              (t.classSteps (t.stepsWithin fuel c) n isDeclaration parts)) := by
          refine accounted_classSteps rfl (fun m _ => within_stepsWithin fuel c m)
            (fun m hm => hchild m ?_) (hchild parts.body ?_) isDeclaration blocks
          · simp [hparts, Option.mem_def.1 hm]
          · simp [hparts]
        rw [Tree.isClass, hkind, Option.any_some] at hclass
        cases kind with
        | classDeclaration parts => exact hsteps parts true rfl
        | classExpression parts => exact hsteps parts false rfl
        | _ => cases hclass

omit hmethods in
/-- The scopes at the root open as strict as they are by themselves. -/
theorem isPlain_of_mem_enterProgram {body : List NodeId} {sourceType : SourceType}
    (hroot : t.rootKind = .program body sourceType) {l : Located String}
    (hl : l.step ∈ t.enterProgram o sourceType) : l.IsPlain (t.ownStrict o) := by
  have hfunction : t.strictAt .function t.root = false := by
    rw [Tree.strictAt, Tree.kind?_root_of_program hroot]
    rfl
  rintro kind block strict hstep
  rw [hstep, Tree.enterProgram, List.mem_cons, List.mem_append] at hl
  rcases hl with hl | hl | hl
  · obtain ⟨rfl, rfl, rfl⟩ := Step.enter.inj hl
    cases hwrapped : o.globalReturnFor sourceType <;> cases hmodule : o.isModuleFor sourceType <;>
      simp [Tree.ownStrict, Tree.strictAt, Tree.strictAtRoot, Tree.programScopes, *]
  · split at hl
    · next hwrapped =>
      rw [Tree.enterFunction, List.mem_cons] at hl
      rcases hl with hl | hl
      · obtain ⟨rfl, rfl, rfl⟩ := Step.enter.inj hl
        cases hmodule : o.isModuleFor sourceType <;>
          simp [Tree.ownStrict, Tree.strictAtRoot, Tree.programScopes, *]
      · simp at hl
    · cases hl
  · split at hl
    · obtain ⟨rfl, rfl, rfl⟩ := Step.enter.inj (List.mem_singleton.1 hl)
      rfl
    · cases hl

/-- Every scope of a program is as strict as its kind and block say, unless a class is around it. -/
theorem accounted_outline {outline : Outline} (h : t.outline? o = some outline) :
    Accounted (t.ownStrict o) (Step.trace [] outline) := by
  obtain ⟨body, sourceType, hroot, rfl⟩ := Tree.exists_program_of_outline? h
  have hkind := Tree.kind?_root_of_program hroot
  have hordinary := Tree.isOrdinary_of_kind? hkind rfl rfl
  rw [Step.trace_append, Step.trace_append]
  refine .append (.append (.of_isPlain fun l hl => ?_) (.flatMap (fun m hm => ?_) _)) .nil
  · exact isPlain_of_mem_enterProgram hroot (Step.mem_of_mem_trace hl)
  · have hm := Tree.mem_childrenOf hkind hm
    exact accounted_stepsWithin hmethods (Tree.IsChild.below hm)
      (Tree.index_lt_of_mem_childrenOf hm)
      (hmethods.not_isMember .refl hordinary.1 (.inr hordinary.2) hm) rfl

end Visits

end Methods

end LexicalScope
