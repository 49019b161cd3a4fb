import LexicalScope.Proofs.Analyzed
import LexicalScope.Proofs.StepOrigins

/-!
When analysis fails. A root that is no program is refused. A program that is no module fails at
the first import declaration in its body, as long as no import declaration stands anywhere else.
Nothing else makes the analysis of a tree fail.
-/
namespace LexicalScope

/-- An argument that cannot be analysed, whatever the options. -/
def ScopeError.isInvalidArgument : ScopeError → Bool
  | rootNotProgram .. | unknownNode .. => true
  | notImplemented _ | noActiveFile | importOutsideModule _ => false

namespace Tree

/-- Import declarations stand nowhere but in the body of the program. -/
def ImportsInBody (t : Tree) : Prop :=
  ∀ p n, t.Below p t.root → n ∈ t.childrenOf p → t.isImport n → p = t.root

def allImportsInBody (t : Tree) : Bool :=
  (List.range t.size).all fun p => (t.childrenOf ⟨p⟩).all fun n => !t.isImport n || ⟨p⟩ = t.root

theorem importsInBody_of_all {t : Tree} (h : t.allImportsInBody) : t.ImportsInBody := by
  intro p n _ hn himport
  have hp := List.all_eq_true.1 h p.index
    (List.mem_range.2 (index_lt_size_of_mem_childrenOf hn))
  simpa [himport] using List.all_eq_true.1 hp n hn

end Tree

section Steps

variable {t : Tree} {n : NodeId} {c : Context}

/-- The steps at an import declaration report it unless it stands in a module. -/
theorem findSome?_steps_import (himport : t.isImport n) :
    (t.steps c n).findSome? Step.misplacedImport? = if c.isModule then none else some n := by
  obtain ⟨kind, hkind, himport⟩ := (Option.any_eq_true _ _).1 himport
  cases kind with
  | importDeclaration specifiers source importKind =>
    have hsteps : t.steps c n =
        if c.isModule then t.importSteps n specifiers importKind else [.misplacedImport n] := by
      rw [Tree.steps, Tree.stepsWithin, hkind]
      rfl
    rw [hsteps]
    split
    · refine List.findSome?_eq_none_iff.2 fun step hstep => ?_
      have hplain := Tree.isPlain_importSteps specifiers importKind step hstep
      cases step with
      | misplacedImport => exact hplain.elim
      | _ => rfl
    · rfl
  | _ => cases himport

/-- Below a statement of the program, no import declaration is visited. -/
theorem findSome?_steps_of_mem_body (himports : t.ImportsInBody) (hn : n ∈ t.childrenOf t.root)
    (hnot : t.isImport n = false) : (t.steps c n).findSome? Step.misplacedImport? = none := by
  refine List.findSome?_eq_none_iff.2 fun step hstep => ?_
  cases step with
  | misplacedImport m =>
    obtain ⟨hbelow, himport⟩ :=
      below_of_misplacedImport_mem_steps (Tree.index_lt_of_mem_childrenOf hn) hstep
    rcases hbelow.cases_head with rfl | ⟨p, hm, hp⟩
    · rw [hnot] at himport
      cases himport
    · have hroot := himports p m (hp.tail hn) hm himport
      rw [hroot] at hp
      exact absurd hp (Tree.not_below_of_mem_childrenOf hn)
  | _ => rfl

/-- The walk over a body stops at its first import declaration, unless that is a module. No
statement before that one reports anything. -/
theorem findSome?_steps_body (himports : t.ImportsInBody) {body : List NodeId}
    (hbody : ∀ n ∈ body, n ∈ t.childrenOf t.root) :
    (body.flatMap (t.steps c)).findSome? Step.misplacedImport? =
      if c.isModule then none else body.find? t.isImport := by
  induction body with
  | nil => simp
  | cons n body ih =>
    obtain ⟨hn, hbody⟩ := List.forall_mem_cons.1 hbody
    rw [List.flatMap_cons, List.findSome?_append, ih hbody, List.find?_cons]
    cases himport : t.isImport n with
    | true =>
      rw [findSome?_steps_import himport]
      split <;> rfl
    | false => rw [findSome?_steps_of_mem_body himports hn himport, Option.none_or]

/-- Entering the program reports no import. -/
theorem findSome?_enterProgram {body : List NodeId} {sourceType : SourceType}
    (hroot : t.rootKind = .program body sourceType) (o : LanguageOptions) :
    (t.enterProgram o sourceType).findSome? Step.misplacedImport? = none := by
  have hkind := Tree.kind?_root_of_program hroot
  refine List.findSome?_eq_none_iff.2 fun step hstep => ?_
  cases step with
  | misplacedImport m =>
    have himport := ((Tree.belongsTo_enterProgram hkind rfl rfl o sourceType).misplaced hstep).2
    obtain rfl := ((Tree.belongsTo_enterProgram hkind rfl rfl o sourceType).misplaced hstep).1
    rw [Tree.isImport, hkind] at himport
    cases himport
  | _ => rfl

end Steps

section Analyze

variable {t : Tree} {o : LanguageOptions} {body : List NodeId} {sourceType : SourceType}

/-- The import in the wrong place that stops the walk over a program. -/
theorem misplacedImport_of_outline (himports : t.ImportsInBody)
    (hroot : t.rootKind = .program body sourceType) :
    ∃ outline, t.outline? o = some outline ∧ outline.findSome? Step.misplacedImport? =
      if o.sourceTypeFor sourceType = .module then none else body.find? t.isImport := by
  have hkind := Tree.kind?_root_of_program hroot
  refine ⟨_, by rw [Tree.outline?, hroot], ?_⟩
  have hbody : ∀ n ∈ body, n ∈ t.childrenOf t.root := fun n hn =>
    Tree.mem_childrenOf_iff.2 ⟨_, hkind, hn⟩
  rw [List.findSome?_append, List.findSome?_append, findSome?_enterProgram hroot,
    findSome?_steps_body himports hbody]
  simp [LanguageOptions.isModuleFor, Step.misplacedImport?]

variable {outline : Outline} {n : NodeId}

/-- An import in the wrong place is the error of the analysis, whatever the names and environments.
-/
theorem analyze_of_misplaced (houtline : t.outline? o = some outline)
    (h : outline.findSome? Step.misplacedImport? = some n) (names : NameTable)
    (envs : Environments) : (analyze names t o envs).2 = .error (.importOutsideModule n) := by
  rw [analyze, houtline]
  simp only [h]

/-- Nothing else can stop the analysis of a program. -/
theorem analyze_of_placed (houtline : t.outline? o = some outline)
    (h : outline.findSome? Step.misplacedImport? = none) (names : NameTable)
    (envs : Environments) : ∃ g, (analyze names t o envs).2 = .ok g := by
  rw [analyze, houtline]
  simp only [h]
  exact ⟨_, rfl⟩

/-- A root that is not a program is reported with its type. -/
theorem analyze_of_not_program (hprogram : t.rootKind.isProgram = false) (names : NameTable)
    (o : LanguageOptions) (envs : Environments) :
    (analyze names t o envs).2 = .error (.rootNotProgram t.root t.rootKind.typeName) := by
  have houtline : t.outline? o = none := by
    unfold Tree.outline?
    split
    · next hroot =>
      rw [hroot] at hprogram
      cases hprogram
    · rfl
  rw [analyze, houtline]

theorem exists_program_iff (hroot : t.rootKind = .program body sourceType)
    {P : List NodeId → SourceType → Prop} :
    (∃ body sourceType, t.rootKind = .program body sourceType ∧ P body sourceType) ↔
      P body sourceType := by
  constructor
  · rintro ⟨body', sourceType', hroot', h⟩
    obtain ⟨rfl, rfl⟩ := NodeKind.program.inj (hroot.symm.trans hroot')
    exact h
  · exact fun h => ⟨body, sourceType, hroot, h⟩

/-- The one error that the analysis of a program can have. -/
theorem analyze_eq_error_iff (himports : t.ImportsInBody)
    (hroot : t.rootKind = .program body sourceType) {names : NameTable} {envs : Environments}
    {e : ScopeError} : (analyze names t o envs).2 = .error e ↔
      o.sourceTypeFor sourceType ≠ .module ∧
        ∃ n, body.find? t.isImport = some n ∧ e = .importOutsideModule n := by
  obtain ⟨outline, houtline, himport⟩ := misplacedImport_of_outline (o := o) himports hroot
  cases hstop : outline.findSome? Step.misplacedImport? with
  | some m =>
    rw [hstop] at himport
    rw [analyze_of_misplaced houtline hstop]
    split at himport
    · cases himport
    · next hmodule =>
      constructor
      · rintro ⟨⟩
        exact ⟨hmodule, m, himport.symm, rfl⟩
      · rintro ⟨-, n, hfind, rfl⟩
        rw [Option.some.inj (himport.trans hfind)]
  | none =>
    rw [hstop] at himport
    obtain ⟨g, hg⟩ := analyze_of_placed houtline hstop names envs
    rw [hg]
    refine ⟨nofun, ?_⟩
    rintro ⟨hmodule, n, hfind, -⟩
    rw [if_neg hmodule, hfind] at himport
    cases himport

/-- An analysis is refused if the root is no program; else it fails exactly at the first import
declaration in the body of a program that is no module. -/
theorem outcome_of_analyze (himports : t.ImportsInBody) (names : NameTable)
    (o : LanguageOptions) (envs : Environments) :
    ((∃ e, (analyze names t o envs).2 = .error e ∧ e.isInvalidArgument) ↔
      t.rootKind.isProgram = false) ∧
    (∀ n, (analyze names t o envs).2 = .error (.importOutsideModule n) ↔
      ∃ body sourceType, t.rootKind = .program body sourceType ∧
        o.sourceTypeFor sourceType ≠ .module ∧ body.find? t.isImport = some n) ∧
    ((∃ g, (analyze names t o envs).2 = .ok g) ↔
      ∃ body sourceType, t.rootKind = .program body sourceType ∧
        (o.sourceTypeFor sourceType = .module ∨ ∀ n ∈ body, t.isImport n = false)) := by
  cases hroot : t.rootKind with
  | program body sourceType =>
    have herror (e : ScopeError) : (analyze names t o envs).2 = .error e ↔ _ :=
      analyze_eq_error_iff himports hroot
    simp only [← hroot, exists_program_iff hroot]
    refine ⟨⟨?_, ?_⟩, fun n => ?_, ?_⟩
    · rintro ⟨e, he, hinvalid⟩
      obtain ⟨-, n, -, rfl⟩ := (herror e).1 he
      cases hinvalid
    · intro hprogram
      rw [hroot] at hprogram
      cases hprogram
    · rw [herror]
      simp
    · have hok : (∃ g, (analyze names t o envs).2 = .ok g) ↔
          ∀ e, (analyze names t o envs).2 ≠ .error e := by
        cases (analyze names t o envs).2 <;> simp
      have hnone : body.find? t.isImport = none ↔ ∀ n ∈ body, t.isImport n = false := by
        simp
      rw [hok, ← hnone]
      simp only [ne_eq, herror]
      by_cases hmodule : o.sourceTypeFor sourceType = .module
      · simp [hmodule]
      · cases body.find? t.isImport <;> simp [hmodule]
  | _ =>
    have hprogram : t.rootKind.isProgram = false := by rw [hroot]; rfl
    rw [analyze_of_not_program hprogram]
    refine ⟨⟨fun _ => rfl, fun _ => ⟨_, rfl, rfl⟩⟩, fun n => ⟨nofun, ?_⟩, ⟨nofun, ?_⟩⟩ <;>
      · rintro ⟨_, _, hnot, -⟩
        cases hnot

/-- `function f() {} import "a"; import "b"` -/
def twoImports : Build NodeId := do
  let f ← .functionDeclaration (some "f") [] []
  .alloc (.program [f, ← .importDeclaration [] "a", ← .importDeclaration [] "b"] .script)

/-- A script stops at the first import; as a module it can be analysed. -/
theorem outcome_twoImports : ∃ t, Build.tree twoImports = .ok t ∧ t.ImportsInBody ∧
    (∃ n, t.rootKind.children[1]? = some n ∧
      (analyze {} t {} {}).2 = .error (.importOutsideModule n)) ∧
    ∃ g, (analyze {} t { sourceType := some .module } {}).2 = .ok g := by
  obtain ⟨t, ht⟩ : ∃ t, Build.tree twoImports = .ok t := ⟨_, rfl⟩
  have himports : t.ImportsInBody := by
    obtain rfl := Except.ok.inj ht
    exact Tree.importsInBody_of_all (by decide)
  have hroot : ∃ body, t.rootKind = .program body .script ∧
      ∃ n, body[1]? = some n ∧ body.find? t.isImport = some n := by
    obtain rfl := Except.ok.inj ht
    exact ⟨_, rfl, _, rfl, by decide⟩
  obtain ⟨body, hroot, n, hn, hfirst⟩ := hroot
  have hscript := outcome_of_analyze himports {} {} {}
  have hmodule := outcome_of_analyze himports {} { sourceType := some .module } {}
  refine ⟨t, ht, himports, ⟨n, by rw [hroot]; exact hn, (hscript.2.1 n).2 ?_⟩, hmodule.2.2.2 ?_⟩
  · exact ⟨body, .script, hroot, by decide, hfirst⟩
  · exact ⟨body, .script, hroot, .inl rfl⟩

end Analyze

end LexicalScope
