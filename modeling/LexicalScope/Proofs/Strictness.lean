import LexicalScope.Proofs.ClassTrace
import LexicalScope.Proofs.Enclosing

/-!
Strict scopes. A scope is strict if it, or a scope around it, is so by itself: the scope of a
class or a module, of a function or a program that begins with the directive, and the innermost
one at the root if strictness is implied. Methods add nothing to this, as they stand in classes.
-/
namespace LexicalScope

variable {ν : Type}

namespace ScopeGraph

variable {own : ScopeKind → NodeId → Bool}

def isOwnStrict (g : ScopeGraph ν) (own : ScopeKind → NodeId → Bool) (s : ScopeId) : Bool :=
  (g.getScope? s).any fun scope => own scope.kind scope.block

/-- A scope is strict iff it or a scope around it is so by itself. -/
def InheritsStrictness (g : ScopeGraph ν) (own : ScopeKind → NodeId → Bool) : Prop :=
  ∀ s, s.index < g.scopes.size → (g.isStrict s ↔ ∃ x ∈ g.chain s, g.isOwnStrict own x)

theorem isOwnStrict_iff {g : ScopeGraph ν} {s : ScopeId} : g.isOwnStrict own s ↔
    ∃ kind n, g.kindOf? s = some kind ∧ g.blockOf s = some n ∧ own kind n := by
  rw [isOwnStrict, kindOf?, blockOf]
  cases g.getScope? s <;> simp

theorem exists_blockOf {g : ScopeGraph ν} {s : ScopeId} {kind : ScopeKind}
    (h : g.kindOf? s = some kind) : ∃ n, g.blockOf s = some n := by
  obtain ⟨scope, hscope, -⟩ := Option.map_eq_some_iff.1 h
  exact ⟨scope.block, by rw [blockOf, hscope]; rfl⟩

theorem SamePositions.isOwnStrict {g g' : ScopeGraph ν} (h : g.SamePositions g') (s : ScopeId) :
    g'.isOwnStrict own s = g.isOwnStrict own s := by
  have hown := congrArg (Option.any fun p => own p.1 p.2.2.2) (h s)
  simp only [Option.any_map] at hown
  exact hown

theorem SameTree.isStrict {g g' : ScopeGraph ν} (h : g.SameTree g') (s : ScopeId) :
    g'.isStrict s = g.isStrict s := by
  have hstrict := congrArg (Option.any (·.2.1)) (h.treeNode_eq s)
  simp only [Option.any_map] at hstrict
  exact hstrict

theorem InheritsStrictness.congr {g g' : ScopeGraph ν} (h : g.InheritsStrictness own)
    (hsame : g.SameTree g') : g'.InheritsStrictness own := by
  have hpositions := hsame.samePositions
  intro s hs
  rw [hsame.isStrict, hpositions.chain, funext hpositions.isOwnStrict]
  exact h s ((hpositions.lt_size_iff s).1 hs)

section Open

variable {g : ScopeGraph ν} {u : ScopeId} {kind : ScopeKind} {block : NodeId} {strict : Bool}

theorem isOwnStrict_openScope (upper : Option ScopeId) {x : ScopeId} (hx : x ≠ g.nextScope) :
    (g.openScope kind block strict upper).isOwnStrict own x = g.isOwnStrict own x := by
  have hown := congrArg (Option.any fun p => own p.1 p.2.2.2)
    (position_openScope kind block strict upper hx)
  simp only [Option.any_map] at hown
  exact hown

theorem isOwnStrict_nextScope (upper : Option ScopeId) :
    (g.openScope kind block strict upper).isOwnStrict own g.nextScope = own kind block := by
  rw [isOwnStrict, getScope?_openScope, if_pos rfl]
  rfl

theorem isStrict_openScope (upper : Option ScopeId) {x : ScopeId} (hx : x ≠ g.nextScope) :
    (g.openScope kind block strict upper).isStrict x = g.isStrict x := by
  rw [isStrict, getScope?_openScope, if_neg hx, isStrict]
  split <;> cases g.getScope? x <;> rfl

theorem isStrict_nextScope :
    (g.openScope kind block strict (some u)).isStrict g.nextScope = (strict || g.isStrict u) := by
  rw [isStrict, getScope?_openScope, if_pos rfl]
  rfl

/-- A new scope may be strict by itself or because one of the scopes around it is so by itself. -/
theorem InheritsStrictness.openScope (h : g.InheritsStrictness own) (hg : g.Rooted)
    (hu : u.index < g.scopes.size)
    (hstrict : strict = own kind block ∨ ∃ y ∈ g.chain u, g.isOwnStrict own y) :
    (g.openScope kind block strict (some u)).InheritsStrictness own := by
  have hold {s : ScopeId} (hs : s.index < g.scopes.size) :
      (∃ x ∈ g.chain s, (g.openScope kind block strict (some u)).isOwnStrict own x) ↔
        ∃ x ∈ g.chain s, g.isOwnStrict own x := by
    refine exists_congr fun x => and_congr_right fun hx => ?_
    rw [isOwnStrict_openScope _ (ne_nextScope_of_lt (hg.size_of_mem_chain hs hx))]
  intro s hs
  rcases lt_or_eq_nextScope (size_scopes_openScope ..) hs with hs | rfl
  · rw [isStrict_openScope _ (ne_nextScope_of_lt hs), hg.chain_openScope _ _ _ hu hs, hold hs]
    exact h s hs
  · simp only [isStrict_nextScope, hg.chain_nextScope _ _ _ hu, List.mem_cons, exists_eq_or_imp]
    rw [hold hu, isOwnStrict_nextScope, Bool.or_eq_true, h u hu]
    rcases hstrict with rfl | hmem
    · rfl
    · exact iff_of_true (.inr hmem) (.inr hmem)

end Open

theorem inheritsStrictness_root (block : NodeId) :
    (root block (own .global block) : ScopeGraph ν).InheritsStrictness own := by
  intro s hs
  obtain rfl := eq_global_of_lt_root block _ hs
  rw [(rooted_root block _).chain_outermost hs (upper?_root block _ .global)]
  simp [isStrict, isOwnStrict, getScope?_root, opening]

/-- The regions of the trace that remain open around the current scope belong to open scopes. -/
def HoldsOpen (trace : List (Located ν)) (c : Cursor ν) : Prop :=
  ∀ r : Region, r.Remains trace → r.blocks <:+ c.graph.blocksOf c.current →
    ∃ s ∈ c.opened, c.graph.region? s = some r

theorem HoldsOpen.step {trace : List (Located ν)} {c : Cursor ν} (h : HoldsOpen trace c)
    {l : Located ν} (hl : l.region? = none) {g : ScopeGraph ν} (hsame : c.graph.SamePositions g) :
    HoldsOpen (trace ++ [l]) { c with graph := g } := by
  intro r hr hsuffix
  simp only [Region.remains_concat_iff, hl, reduceCtorEq, false_or] at hr
  obtain ⟨s, hs, hregion⟩ := h r hr.1 (hsame.blocksOf c.current ▸ hsuffix)
  exact ⟨s, hs, (hsame.region? s).trans hregion⟩

variable [DecidableEq ν]

/-- A region remains open as long as its scope does: the scope that is closed has one block more
than those around what remains. -/
theorem walkInvariant_holdsOpen (t : Tree) :
    WalkInvariant t (HoldsOpen : List (Located ν) → Cursor ν → Prop) where
  enter := by
    intro trace c blocks kind h hc hkind block strict r hr _
    have hg := h.walked.toRooted
    rw [Cursor.enter, h.head?_opened]
    rw [Region.remains_concat_iff] at hr
    rcases hr with hr | ⟨hr, hsuffix⟩
    · refine ⟨c.graph.nextScope, List.mem_cons_self .., ?_⟩
      rw [region?_nextScope kind block strict hg h.lt_size, Walking.blocksOf_current h]
      exact hr
    · obtain ⟨s, hs, hregion⟩ := hc r hr (Walking.blocksOf_current h ▸ hsuffix)
      refine ⟨s, List.mem_cons_of_mem _ hs, ?_⟩
      rw [region?_openScope kind block strict hg h.lt_size (h.size_of_mem_opened hs), hregion]
  close := by
    intro trace g s outer b blocks h hc hs r hr hsuffix
    have hpositions := (SameTree.closeScope t g s).samePositions
    rw [Walking.blocksOf_current (h.close hs)] at hsuffix
    have hcurrent : g.blocksOf s = b :: blocks := Walking.blocksOf_current h
    obtain ⟨y, hy, hregion⟩ := hc r hr (hcurrent ▸ hsuffix.trans (List.suffix_cons ..))
    refine ⟨y, ?_, by rw [hpositions.region?, hregion]⟩
    rcases List.mem_cons.1 hy with rfl | hy
    · have hle := hsuffix.length_le
      rw [← (region?_eq_some_iff.1 hregion).2, hcurrent, List.length_cons] at hle
      omega
    · exact hy
  declare _ hc _ name d := hc.step rfl (SameTree.declare _ _ name d).samePositions
  refer _ hc _ := hc.step rfl (SameTree.addReference _ _).samePositions
  this _ hc := hc.step rfl (SameTree.modifyScope (by exact fun _ => rfl) _).samePositions
  misplacedImport _ hc _ := hc.step rfl (.refl _)

/-- Strictness is inherited all along a walk in which all scopes are accounted for. -/
theorem walkInvariant_strict (t : Tree) (hclass : ∀ n, own .classBody n = true) :
    WalkInvariant t fun (trace : List (Located ν)) c =>
      HoldsOpen trace c ∧ (Accounted own trace → c.graph.InheritsStrictness own) where
  enter := by
    intro trace c blocks kind h hc hkind block strict
    refine ⟨(walkInvariant_holdsOpen t).enter h hc.1 hkind block strict, fun htrace => ?_⟩
    rw [Cursor.enter, h.head?_opened]
    refine (hc.2 htrace.of_append).openScope h.walked.toRooted h.lt_size ?_
    refine (htrace trace _ [] rfl).imp (fun hl => hl kind block strict rfl) ?_
    rintro ⟨r, hr, hopen, hsuffix⟩
    obtain ⟨s, hs, hregion⟩ := hc.1 r hopen (Walking.blocksOf_current h ▸ hsuffix)
    refine ⟨s, h.opened_eq ▸ hs, ?_⟩
    have hkind := (region?_eq_some_iff.1 hregion).1
    obtain ⟨scope, hscope, heq⟩ := Option.map_eq_some_iff.1 hkind
    rw [isOwnStrict, hscope, Option.any_some, heq, hr, hclass]
  close h hc hs :=
    ⟨(walkInvariant_holdsOpen t).close h hc.1 hs,
      fun htrace => (hc.2 htrace).congr (.closeScope t _ _)⟩
  declare h hc place name d :=
    ⟨(walkInvariant_holdsOpen t).declare h hc.1 place name d,
      fun htrace => (hc.2 htrace.of_append).congr (.declare _ _ name d)⟩
  refer h hc o :=
    ⟨(walkInvariant_holdsOpen t).refer h hc.1 o,
      fun htrace => (hc.2 htrace.of_append).congr (.addReference _ _)⟩
  this h hc :=
    ⟨(walkInvariant_holdsOpen t).this h hc.1,
      fun htrace => (hc.2 htrace.of_append).congr (.modifyScope (by exact fun _ => rfl) _)⟩
  misplacedImport h hc n :=
    ⟨(walkInvariant_holdsOpen t).misplacedImport h hc.1 n, fun htrace => hc.2 htrace.of_append⟩

omit [DecidableEq ν] in
theorem strict_root (block : NodeId) (strict : Bool) :
    let trace : List (Located ν) := [⟨[], .enter .global block strict⟩]
    let c := ({} : Cursor ν).enter .global block strict
    HoldsOpen trace c ∧ (Accounted own trace → c.graph.InheritsStrictness own) := by
  have hnever (r : Region) : ¬r.Remains ([] : List (Located ν)) := by
    rintro ⟨before, l, after, heq, -⟩
    simp at heq
  refine ⟨fun r hr _ => ?_, fun htrace => ?_⟩
  · rw [← List.nil_append [_], Region.remains_concat_iff] at hr
    rcases hr with hr | ⟨hr, -⟩
    · exact ⟨.global, List.mem_singleton_self _, hr⟩
    · exact absurd hr (hnever r)
  · obtain hl | ⟨r, -, hr, -⟩ := htrace [] _ [] rfl
    · obtain rfl := hl .global block strict rfl
      exact inheritsStrictness_root block
    · exact absurd hr (hnever r)

end ScopeGraph

namespace Tree

variable {t : Tree} {n : NodeId} {statements : List NodeId} {value value' : String}
  {raw raw' : Option String}

def IsStringStatement (t : Tree) (n : NodeId) (value : String) (raw : Option String) : Prop :=
  ∃ expression directive, t.kind? n = some (.expressionStatement expression directive) ∧
    t.kind? expression = some (.literal (.string value) raw)

/-- The directive is told by its raw text; a literal without raw text is taken at its value. -/
def IsUseStrict (value : String) (raw : Option String) : Prop :=
  raw = some "\"use strict\"" ∨ raw = some "'use strict'" ∨ raw = none ∧ value = "use strict"

/-- The statements open with string literals, and one of these is the directive `use strict`. -/
def BeginsStrict (t : Tree) (statements : List NodeId) : Prop :=
  ∃ before n after value raw, statements = before ++ n :: after ∧
    (∀ m ∈ before, ∃ value raw, t.IsStringStatement m value raw) ∧
    t.IsStringStatement n value raw ∧ IsUseStrict value raw

theorem IsStringStatement.unique (h : t.IsStringStatement n value raw)
    (h' : t.IsStringStatement n value' raw') : value = value' ∧ raw = raw' := by
  obtain ⟨expression, directive, hn, hexpression⟩ := h
  obtain ⟨expression', directive', hn', hexpression'⟩ := h'
  simp_all

/-- A prologue goes on as long as the statements are string literals. -/
theorem beginsStrict_cons_iff : t.BeginsStrict (n :: statements) ↔
    ∃ value raw, t.IsStringStatement n value raw ∧
      (IsUseStrict value raw ∨ t.BeginsStrict statements) := by
  constructor
  · rintro ⟨before, m, after, value, raw, heq, hbefore, hm, hstrict⟩
    cases before with
    | nil =>
      obtain ⟨rfl, rfl⟩ := List.cons.inj heq
      exact ⟨value, raw, hm, .inl hstrict⟩
    | cons x before =>
      obtain ⟨rfl, rfl⟩ := List.cons.inj heq
      obtain ⟨⟨value', raw', hn⟩, hbefore⟩ := List.forall_mem_cons.1 hbefore
      exact ⟨value', raw', hn, .inr ⟨before, m, after, value, raw, rfl, hbefore, hm, hstrict⟩⟩
  · rintro ⟨value, raw, hn, hstrict | ⟨before, m, after, value', raw', rfl, hbefore, hm⟩⟩
    · exact ⟨[], n, statements, value, raw, rfl, List.forall_mem_nil _, hn, hstrict⟩
    · exact ⟨n :: before, m, after, value', raw', rfl,
        List.forall_mem_cons.2 ⟨⟨value, raw, hn⟩, hbefore⟩, hm⟩

theorem prologue_cons (h : t.IsStringStatement n value raw) :
    t.prologue (n :: statements) = (value, raw) :: t.prologue statements := by
  obtain ⟨expression, directive, hn, hexpression⟩ := h
  simp [prologue, hn, hexpression]

theorem prologue_cons_of_not (h : ∀ value raw, ¬t.IsStringStatement n value raw) :
    t.prologue (n :: statements) = [] := by
  simp only [prologue, List.map_cons]
  split
  · next expression directive hn =>
    split
    · next value raw hexpression =>
      exact absurd ⟨expression, directive, hn, hexpression⟩ (h value raw)
    · rfl
  · rfl

/-- The directives found are those of the opening string literals. -/
theorem any_prologue_iff {p : String × Option String → Bool}
    (hp : ∀ value raw, p (value, raw) ↔ IsUseStrict value raw) :
    (t.prologue statements).any p ↔ t.BeginsStrict statements := by
  induction statements with
  | nil => simp [prologue, BeginsStrict]
  | cons n statements ih =>
    rw [beginsStrict_cons_iff]
    by_cases hn : ∃ value raw, t.IsStringStatement n value raw
    · obtain ⟨value, raw, hn⟩ := hn
      rw [prologue_cons hn, List.any_cons, Bool.or_eq_true, hp, ih]
      refine ⟨fun h => ⟨value, raw, hn, h⟩, ?_⟩
      rintro ⟨value', raw', hn', h⟩
      obtain ⟨rfl, rfl⟩ := hn.unique hn'
      exact h
    · have hnot (value : String) (raw : Option String) : ¬t.IsStringStatement n value raw :=
        fun h => hn ⟨value, raw, h⟩
      simp [prologue_cons_of_not hnot, hnot]

def BlockBeginsStrict (t : Tree) (block : NodeId) : Prop :=
  ∃ statements, t.kind? block = some (.blockStatement statements) ∧ t.BeginsStrict statements

/-- A program as the body of a function is taken for a block. -/
def BodyBeginsStrict (t : Tree) (body : NodeId) : Prop :=
  t.BlockBeginsStrict body ∨ ∃ statements sourceType,
    t.kind? body = some (.program statements sourceType) ∧ t.BeginsStrict statements

/-- The body of the function at `n` begins strict. An arrow with an expression has no body. -/
def FunctionBeginsStrict (t : Tree) (begins : NodeId → Prop) (n : NodeId) : Prop :=
  ∃ kind body, t.kind? n = some kind ∧ kind.isFunction ∧
    (∀ f, kind = .arrowFunctionExpression f → f.expression = false) ∧
    kind.functionBody? = some body ∧ begins body

/-- The scan for the directive agrees with the rule about the body. -/
theorem hasUseStrict_iff : t.hasUseStrict n ↔ t.BodyBeginsStrict n := by
  unfold hasUseStrict
  dsimp only
  split
  · next statements sourceType hkind =>
    rw [any_prologue_iff fun value raw => by cases raw <;> simp [IsUseStrict]]
    simp [BodyBeginsStrict, BlockBeginsStrict, hkind]
  · next statements hkind =>
    rw [any_prologue_iff fun value raw => by cases raw <;> simp [IsUseStrict]]
    simp [BodyBeginsStrict, BlockBeginsStrict, hkind]
  · next hprogram hblock =>
    refine iff_of_false Bool.false_ne_true ?_
    rintro (⟨statements, h, -⟩ | ⟨statements, sourceType, h, -⟩)
    · exact hblock statements h
    · exact hprogram statements sourceType h

/-- A function is strict by its body, which an arrow may lack. -/
theorem isStrictFunction_iff {kind : NodeKind} : t.isStrictFunction kind ↔
    (∀ f, kind = .arrowFunctionExpression f → f.expression = false) ∧
      ∃ body, kind.functionBody? = some body ∧ t.hasUseStrict body := by
  unfold isStrictFunction
  split
  · simp
  · next hexpression =>
    rw [Option.any_eq_true]
    refine (and_iff_right fun f hf => ?_).symm
    rw [Bool.eq_false_iff]
    intro htrue
    exact hexpression f.params f.body f.isAsync (by rw [hf, ← htrue])

theorem strictAt_function_iff : t.strictAt .function n ↔
    t.FunctionBeginsStrict t.BodyBeginsStrict n := by
  have hfunction {kind : NodeKind} {body : NodeId} (h : kind.functionBody? = some body) :
      kind.isFunction := by
    cases kind <;> first | rfl | cases h
  rw [strictAt, Option.any_eq_true]
  constructor
  · rintro ⟨kind, hkind, hstrict⟩
    obtain ⟨harrow, body, hbody, hstrict⟩ := isStrictFunction_iff.1 hstrict
    exact ⟨kind, body, hkind, hfunction hbody, harrow, hbody, hasUseStrict_iff.1 hstrict⟩
  · rintro ⟨kind, body, hkind, -, harrow, hbody, hstrict⟩
    exact ⟨kind, hkind, isStrictFunction_iff.2
      ⟨harrow, body, hbody, hasUseStrict_iff.2 hstrict⟩⟩

end Tree

section Analyze

/-- What makes a scope strict by itself, where `begins` says which function bodies begin with the
directive. -/
inductive ScopeGraph.StrictByItself (g : ScopeGraph ν) (t : Tree) (o : LanguageOptions)
    (begins : NodeId → Prop) (x : ScopeId) : Prop
  | classBody (hkind : g.kindOf? x = some .classBody)
  | module (hkind : g.kindOf? x = some .module)
  | function {n : NodeId} (hkind : g.kindOf? x = some .function) (hblock : g.blockOf x = some n)
      (hstrict : t.FunctionBeginsStrict begins n)
  /-- The function around a wrapped program. -/
  | wrapped {body : List NodeId} {sourceType : SourceType}
      (hkind : g.kindOf? x = some .function) (hblock : g.blockOf x = some t.root)
      (hroot : t.rootKind = .program body sourceType) (hwrapped : o.globalReturnFor sourceType)
      (hstrict : t.BeginsStrict body)
  | global {body : List NodeId} {sourceType : SourceType} (hkind : g.kindOf? x = some .global)
      (hroot : t.rootKind = .program body sourceType)
      (hwrapped : o.globalReturnFor sourceType = false) (hstrict : t.BeginsStrict body)
  | implied (himplied : o.impliedStrict) (hlast : (g.scopesOf t.root).getLast? = some x)

variable {names names' : NameTable} {t : Tree} {o : LanguageOptions} {envs : Environments}
  {g : ScopeGraph Name} {body : List NodeId} {sourceType : SourceType}

theorem head?_blocks_ne_of_mem {blocks : List NodeId} {steps : Outline} {n : NodeId}
    (hsteps : ∀ step ∈ steps, ∃ m : NodeId, m.index < n.index ∧ step.Within m) {r : Region}
    (hr : r ∈ Located.regions (Step.trace blocks steps)) : r.blocks.head? ≠ some n := by
  obtain ⟨l, hl, hregion⟩ := List.mem_filterMap.1 hr
  obtain ⟨m, hlt, hwithin⟩ := hsteps l.step (Step.mem_of_mem_trace hl)
  obtain ⟨outer, step⟩ := l
  cases step with
  | enter kind block strict =>
    obtain rfl := Option.some.inj hregion
    intro heq
    obtain rfl := Option.some.inj heq
    exact Nat.not_le_of_lt hlt hwithin
  | _ => cases hregion

/-- What a program opens at its root. -/
theorem filter_regions_outline {outline : Outline} (h : t.outline? o = some outline)
    (hroot : t.rootKind = .program body sourceType) :
    (Located.regions (Step.trace [] outline)).filter (·.blocks.head? = some t.root) =
      regionsFrom t.root [] (Tree.programScopes o sourceType) := by
  unfold Tree.outline? at h
  rw [hroot] at h
  obtain rfl := Option.some.inj h
  have hprogram : (regionsFrom t.root [] (Tree.programScopes o sourceType)).filter
      (·.blocks.head? = some t.root) = regionsFrom t.root [] (Tree.programScopes o sourceType) :=
    List.filter_eq_self.2 fun r hr => decide_eq_true (head?_blocks_of_mem hr)
  rw [Step.trace_append, Step.trace_append, Located.regions_append, Located.regions_append,
    (t.opensAt_enterProgram o sourceType).regions_trace, List.filter_append, List.filter_append,
    hprogram]
  have hbelow (m : NodeId) (hm : m ∈ body) : m.index < t.root.index :=
    Tree.index_lt_of_mem_children (Tree.kind?_root_of_program hroot) hm
  have hbody (blocks : List NodeId) : (Located.regions (Step.trace blocks
      (body.flatMap (t.steps { isModule := o.isModuleFor sourceType })))).filter
        (·.blocks.head? = some t.root) = [] := by
    refine List.filter_eq_nil_iff.2 fun r hr heq => ?_
    refine head?_blocks_ne_of_mem (fun step hstep => ?_) hr (of_decide_eq_true heq)
    obtain ⟨m, hm, hstep⟩ := List.mem_flatMap.1 hstep
    exact ⟨m, hbelow m hm, within_stepsWithin _ _ m step hstep⟩
  rw [hbody, List.append_nil]
  exact List.append_nil _

variable (h : analyze names t o envs = (names', .ok g))
include h

/-- The scopes at the root are those that the program opens, in this order. -/
theorem map_kindOf?_scopesOf_root (hroot : t.rootKind = .program body sourceType) :
    (g.scopesOf t.root).map g.kindOf? = (Tree.programScopes o sourceType).map some := by
  obtain ⟨outline, houtline, hregions⟩ := map_region?_of_analyze h
  have hg := (analyzed_of_analyze h).toWellFormed
  have hscopes : (g.scopesOf t.root).map g.region? =
      (regionsFrom t.root [] (Tree.programScopes o sourceType)).map some := by
    have hanchored (s : ScopeId) (hs : s ∈ g.scopeIds) : decide (g.blockOf s = some t.root) =
        (g.region? s).any (·.blocks.head? = some t.root) := by
      have hs := ScopeGraph.mem_scopeIds_iff.1 hs
      obtain ⟨kind, hregion⟩ := ScopeGraph.exists_region? hs
      rw [hregion, Option.any_some, hg.head?_blocksOf hs]
    have hfilter := congrArg (List.filter (Option.any (·.blocks.head? = some t.root))) hregions
    rw [List.filter_map, List.filter_map] at hfilter
    rw [(nested_of_analyze h).1.scopesOf_eq, List.filter_congr hanchored,
      ← filter_regions_outline houtline hroot]
    exact hfilter
  have hkind : g.kindOf? = Option.map (·.kind) ∘ g.region? := by
    funext s
    simp [ScopeGraph.region?, Function.comp_def]
  rw [hkind, ← List.map_map, hscopes, List.map_map, ← map_kind_regionsFrom t.root []
    (Tree.programScopes o sourceType), List.map_map, map_kind_regionsFrom]
  rfl

/-- The innermost scope at the root is told by its kind. -/
theorem getLast?_scopesOf_root_iff (hroot : t.rootKind = .program body sourceType)
    {x : ScopeId} : (g.scopesOf t.root).getLast? = some x ↔ g.blockOf x = some t.root ∧
      ∃ kind, g.kindOf? x = some kind ∧
        (Tree.programScopes o sourceType).getLast? = some kind := by
  have hkinds := map_kindOf?_scopesOf_root h hroot
  have hmem (s : ScopeId) (hs : g.blockOf s = some t.root) : s ∈ g.scopesOf t.root := by
    rw [(nested_of_analyze h).1.scopesOf_eq, List.mem_filter, ScopeGraph.mem_scopeIds_iff]
    obtain ⟨scope, hscope, -⟩ := Option.map_eq_some_iff.1 hs
    exact ⟨ScopeGraph.lt_of_getScope? hscope, decide_eq_true hs⟩
  have hblock (s : ScopeId) (hs : s ∈ g.scopesOf t.root) : g.blockOf s = some t.root := by
    rw [(nested_of_analyze h).1.scopesOf_eq, List.mem_filter] at hs
    exact of_decide_eq_true hs.2
  have hnodup : ((g.scopesOf t.root).map g.kindOf?).Nodup := by
    rw [hkinds]
    refine List.Nodup.map (fun _ _ => Option.some.inj) ?_
    unfold Tree.programScopes
    split <;> split <;> decide
  have hlast := congrArg List.getLast? hkinds
  rw [List.getLast?_map, List.getLast?_map] at hlast
  constructor
  · intro hx
    rw [hx, Option.map_some] at hlast
    obtain ⟨kind, hkind, heq⟩ := Option.map_eq_some_iff.1 hlast.symm
    exact ⟨hblock x (List.mem_of_getLast? hx), kind, heq.symm, hkind⟩
  · rintro ⟨hx, kind, hkind, hinnermost⟩
    rw [hinnermost, Option.map_some] at hlast
    obtain ⟨y, hy, heq⟩ := Option.map_eq_some_iff.1 hlast
    rw [hy, List.inj_on_of_nodup_map hnodup (List.mem_of_getLast? hy) (hmem x hx)
      (heq.trans hkind.symm)]

theorem blockOf_global_of_analyze : g.blockOf .global = some t.root := by
  obtain ⟨source, hwalking, -, rfl⟩ := exists_walking_of_analyze h
  rw [(ScopeGraph.SameTree.conclude t source _).samePositions.blockOf]
  exact hwalking.walked.block_global

theorem isOwnStrict_iff {x : ScopeId} :
    g.isOwnStrict (t.ownStrict o) x ↔ g.StrictByItself t o t.BodyBeginsStrict x := by
  obtain ⟨body, sourceType, hroot⟩ : ∃ body sourceType, t.rootKind = .program body sourceType := by
    have hprogram := isProgram_of_analyze h
    cases hroot : t.rootKind with
    | program body sourceType => exact ⟨body, sourceType, rfl⟩
    | _ => simp [hroot, NodeKind.isProgram] at hprogram
  have hkindRoot := Tree.kind?_root_of_program hroot
  have hbegins : t.hasUseStrict t.root ↔ t.BeginsStrict body := by
    simp [Tree.hasUseStrict_iff, Tree.BodyBeginsStrict, Tree.BlockBeginsStrict, hkindRoot]
  rw [ScopeGraph.isOwnStrict_iff]
  simp only [Tree.ownStrict, Bool.or_eq_true, Bool.and_eq_true, decide_eq_true_eq]
  constructor
  · rintro ⟨kind, n, hkind, hblock, hstrict | ⟨rfl, hstrict⟩⟩
    · cases kind with
      | classBody => exact .classBody hkind
      | module => exact .module hkind
      | function => exact .function hkind hblock (Tree.strictAt_function_iff.1 hstrict)
      | _ => cases hstrict
    · simp only [Tree.strictAtRoot, hroot, Bool.or_eq_true, Bool.and_eq_true, decide_eq_true_eq,
        hbegins] at hstrict
      rcases hstrict with ⟨hstrict, heq⟩ | ⟨himplied, hlast⟩
      · split at heq
        · next hwrapped => exact .wrapped (heq ▸ hkind) hblock hroot hwrapped hstrict
        · next hwrapped =>
          exact .global (heq ▸ hkind) hroot (Bool.eq_false_iff.2 hwrapped) hstrict
      · exact .implied himplied
          ((getLast?_scopesOf_root_iff h hroot).2 ⟨hblock, kind, hkind, hlast⟩)
  · intro hx
    cases hx with
    | classBody hkind | module hkind =>
      obtain ⟨n, hn⟩ := ScopeGraph.exists_blockOf hkind
      exact ⟨_, n, hkind, hn, .inl rfl⟩
    | function hkind hblock hstrict =>
      exact ⟨_, _, hkind, hblock, .inl (Tree.strictAt_function_iff.2 hstrict)⟩
    | wrapped hkind hblock hroot' hwrapped hstrict =>
      obtain ⟨rfl, rfl⟩ := NodeKind.program.inj (hroot'.symm.trans hroot)
      refine ⟨_, _, hkind, hblock, .inr ⟨rfl, ?_⟩⟩
      simp [Tree.strictAtRoot, hroot, hwrapped, hbegins.2 hstrict]
    | global hkind hroot' hwrapped hstrict =>
      obtain ⟨rfl, rfl⟩ := NodeKind.program.inj (hroot'.symm.trans hroot)
      obtain ⟨scope, hscope, heq⟩ := Option.map_eq_some_iff.1 hkind
      obtain rfl := ((analyzed_of_analyze h).kind_global hscope).1 heq
      refine ⟨_, _, hkind, blockOf_global_of_analyze h, .inr ⟨rfl, ?_⟩⟩
      simp [Tree.strictAtRoot, hroot, hwrapped, hbegins.2 hstrict]
    | implied himplied hlast =>
      obtain ⟨hblock, kind, hkind, hinnermost⟩ := (getLast?_scopesOf_root_iff h hroot).1 hlast
      refine ⟨_, _, hkind, hblock, .inr ⟨rfl, ?_⟩⟩
      simp [Tree.strictAtRoot, hroot, himplied, hinnermost]

/-- A scope is strict iff it or one of the scopes around it is so by itself. -/
theorem isStrict_iff_of_analyze (hmethods : t.MethodsInClasses) {s : ScopeId}
    (hs : s.index < g.scopes.size) :
    g.isStrict s ↔ ∃ x ∈ g.chain s, g.StrictByItself t o t.BodyBeginsStrict x := by
  have hclass (n : NodeId) : t.ownStrict o .classBody n = true := rfl
  obtain ⟨outline, source, houtline, -, -, ⟨-, hsource⟩, rfl⟩ :=
    (ScopeGraph.walkInvariant_strict (ν := Name) t hclass).of_analyze
      (ScopeGraph.strict_root t.root) h
  have hstrict := hsource ((accounted_outline hmethods houtline).mapName names'.handle)
  have hsame := ScopeGraph.SameTree.conclude t source
    ((GlobalSettings.ofFile o envs t.comments).mapNames names'.handle)
  rw [hstrict.congr hsame s hs]
  simp only [isOwnStrict_iff h]

end Analyze

/-- `class C { m() { () => x } }` -/
def arrowInMethod : Build NodeId := do
  let arrow ← .arrow [] (← .identifier "x")
  let statement ← .alloc (.expressionStatement arrow none)
  let method ← .method .method "m" (← .functionExpression none [] [statement]) false
  let c ← .classDeclaration (some "C") none [method]
  .alloc (.program [c] .script)

/-- A function inside a method is strict because of the class. -/
theorem strict_arrowInMethod : ∃ t names g, Build.tree arrowInMethod = .ok t ∧
    analyze {} t {} {} = (names, .ok g) ∧ t.MethodsInClasses ∧ g.chain ⟨3⟩ = [⟨3⟩, ⟨2⟩, ⟨1⟩, ⟨0⟩] ∧
      g.isStrict ⟨3⟩ ∧ ∃ x ∈ g.chain ⟨3⟩, g.StrictByItself t {} t.BodyBeginsStrict x := by
  obtain ⟨t, names, g, ht, h, hmethods, hsize, hchain, hstrict⟩ := exists_analysis arrowInMethod
    {} {} (fun t _ g => t.allMethodsInClasses ∧ 3 < g.scopes.size ∧
      g.chain ⟨3⟩ = [⟨3⟩, ⟨2⟩, ⟨1⟩, ⟨0⟩] ∧ g.isStrict ⟨3⟩)
    (by decide +kernel)
  have hmethods := Tree.methodsInClasses_of_all hmethods
  exact ⟨t, names, g, ht, h, hmethods, hchain, hstrict,
    (isStrict_iff_of_analyze h hmethods hsize).1 hstrict⟩

/-- `(function () {})`, with a program as its body that begins with the directive -/
def programAsBody : Build NodeId := do
  let body ← .alloc (.program [← .directive "use strict"] .script)
  let f ← .alloc (.functionExpression { id := none, params := [], body := some body })
  let statement ← .alloc (.expressionStatement f none)
  .alloc (.program [statement] .script)

/-- A body that is no block may begin with the directive too. -/
theorem strict_programAsBody : ∃ t names g, Build.tree programAsBody = .ok t ∧
    analyze {} t {} {} = (names, .ok g) ∧ t.MethodsInClasses ∧ 1 < g.scopes.size ∧
      ¬(g.isStrict ⟨1⟩ ↔ ∃ x ∈ g.chain ⟨1⟩, g.StrictByItself t {} t.BlockBeginsStrict x) := by
  obtain ⟨t, names, g, ht, h, hmethods, hsize, hstrict, hchain, hfunction, hglobal, hblock, hroot,
      hbody, hprogram, hplain⟩ := exists_analysis programAsBody {} {}
    (fun t _ g => t.allMethodsInClasses ∧ 1 < g.scopes.size ∧ g.isStrict ⟨1⟩ ∧
      g.chain ⟨1⟩ = [⟨1⟩, ⟨0⟩] ∧ g.kindOf? ⟨1⟩ = some .function ∧ g.kindOf? ⟨0⟩ = some .global ∧
      g.blockOf ⟨1⟩ = some ⟨3⟩ ∧ t.root = ⟨5⟩ ∧
      (t.kind? ⟨3⟩).bind (·.functionBody?) = some ⟨2⟩ ∧ t.isProgram ⟨2⟩ ∧
      t.hasUseStrict t.root = false)
    (by decide +kernel)
  refine ⟨t, names, g, ht, h, Tree.methodsInClasses_of_all hmethods, hsize, fun hiff => ?_⟩
  obtain ⟨x, hx, hx'⟩ := hiff.1 hstrict
  simp only [hchain, List.mem_cons, List.not_mem_nil, or_false] at hx
  rcases hx with rfl | rfl
  · cases hx' with
    | function _ hn hbegins =>
      obtain rfl := Option.some.inj (hblock.symm.trans hn)
      obtain ⟨kind, body, hkind, -, -, hbody', statements, hstatements, -⟩ := hbegins
      rw [hkind, Option.bind_some, hbody'] at hbody
      obtain rfl := Option.some.inj hbody
      rw [Tree.isProgram, hstatements] at hprogram
      cases hprogram
    | wrapped _ hn => simp [hblock, hroot] at hn
    | implied himplied => cases himplied
    | classBody hkind | module hkind | global hkind => simp [hfunction] at hkind
  · cases hx' with
    | global _ hprogram' _ hbegins =>
      have hstrict := Tree.hasUseStrict_iff.2
        (.inr ⟨_, _, Tree.kind?_root_of_program hprogram', hbegins⟩)
      rw [hplain] at hstrict
      cases hstrict
    | implied himplied => cases himplied
    | classBody hkind | module hkind | function hkind | wrapped hkind => simp [hglobal] at hkind

end LexicalScope
