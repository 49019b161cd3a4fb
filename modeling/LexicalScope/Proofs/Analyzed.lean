import LexicalScope.Analysis
import LexicalScope.Proofs.Finalizing
import LexicalScope.Syntax.Build

/-!
What holds of the graph of every analysed file. No scope is open any more, so every reference has
come all the way up.
-/
namespace LexicalScope

variable {ν : Type} [DecidableEq ν]

namespace ScopeGraph

structure Analyzed (g : ScopeGraph ν) (t : Tree) (arguments : ν) : Prop extends WellFormed g where
  settled : g.Settled t []
  listed : ∀ s r, r ∈ g.referencesOf s ↔ g.originOf r = some s
  listed_ascending : ∀ s, Ascending (g.referencesOf s)
  bindsArguments : ∀ s, g.BindsArguments t arguments s

theorem Frame.originOf {touched : List ScopeId} {g g' : ScopeGraph ν} (h : Frame touched g g')
    (r : ReferenceId) : g'.originOf r = g.originOf r := by
  have horigin := congrArg (Option.map (·.origin)) (h.reference_eq r)
  simp only [Option.map_map] at horigin
  exact horigin

/-- What the walk has established survives the closing of the global scope and the settings. -/
theorem analyzed_finalize {g : ScopeGraph ν} {t : Tree} {arguments : ν}
    (h : Walking t ⟨g, [.global]⟩ [t.root]) (harguments : ∀ s, g.BindsArguments t arguments s)
    (settings : GlobalSettings ν) :
    ((g.closeScope t .global).finalize settings).Analyzed t arguments := by
  have hclosing := closing_finalize h.walked h.settled h.lt_size settings
  have hframe := hclosing.frame
  exact {
    hclosing.wellFormed_closed with
    settled := hclosing.settled_closed
    listed := by
      intro s r
      rw [hframe.referencesOf_eq, hframe.originOf]
      exact h.walked.listed s r
    listed_ascending := by
      intro s
      rw [hframe.referencesOf_eq]
      exact h.walked.listed_ascending s
    bindsArguments := by
      intro s
      by_cases hs : s = .global
      · intro scope hscope hkind
        rw [(hclosing.wellFormed_closed.kind_global hscope).2 hs] at hkind
        cases hkind
      · apply (harguments s).mono (hframe.positions s)
        intro hsome
        rwa [hframe.inTable?_eq s fun hmem => hs (List.mem_singleton.1 hmem)] }

end ScopeGraph

section Analyze

variable {names names' : NameTable} {t : Tree} {o : LanguageOptions} {envs : Environments}
  {g : ScopeGraph Name}

/-- An analysis that succeeds walks over the outline of the program. -/
theorem outline?_of_analyze (h : analyze names t o envs = (names', .ok g)) :
    ∃ outline, t.outline? o = some outline ∧
      names' = (names.addAll ((Step.reached outline).filterMap Step.name?)).addAll
        (GlobalSettings.ofFile o envs t.comments).names ∧
      g = .ofOutline t (outline.map (.mapName names'.handle))
        ((GlobalSettings.ofFile o envs t.comments).mapNames names'.handle) := by
  unfold analyze at h
  split at h
  · cases h
  · next outline houtline =>
    simp only at h
    split at h
    · cases h
    · simp only [Prod.mk.injEq, Except.ok.injEq] at h
      obtain ⟨hnames, hg⟩ := h
      exact ⟨outline, houtline, hnames.symm, by rw [← hg, ← hnames]⟩

/-- Only programs are analysed. -/
theorem isProgram_of_analyze (h : analyze names t o envs = (names', .ok g)) :
    t.rootKind.isProgram := by
  obtain ⟨outline, houtline, -⟩ := outline?_of_analyze h
  obtain ⟨body, sourceType, hroot, -⟩ := Tree.exists_program_of_outline? houtline
  rw [hroot]
  rfl

/-- What every step keeps holds of the whole walk, before the global scope closes. -/
theorem WalkInvariant.of_analyze {P : List (Located Name) → Cursor Name → Prop}
    (hP : WalkInvariant t P)
    (hroot : ∀ strict,
      P [⟨[], .enter .global t.root strict⟩] (({} : Cursor Name).enter .global t.root strict))
    (h : analyze names t o envs = (names', .ok g)) :
    ∃ outline, ∃ source : ScopeGraph Name, t.outline? o = some outline ∧
      Walking t ⟨source, [.global]⟩ [t.root] ∧
      (∀ s, source.BindsArguments t (names'.handle "arguments") s) ∧
      P ((Step.trace [] outline).map (.mapName names'.handle)) ⟨source, [.global]⟩ ∧
      g = (source.closeScope t .global).finalize
        ((GlobalSettings.ofFile o envs t.comments).mapNames names'.handle) := by
  obtain ⟨outline, houtline, -, hg⟩ := outline?_of_analyze h
  obtain ⟨source, hwalking, harguments, hsource, hsteps⟩ :=
    hP.ofSteps hroot houtline names'.handle
  exact ⟨outline, source, houtline, hwalking, harguments, hsource,
    by rw [hg, ScopeGraph.ofOutline, hsteps]⟩

/-- A successful analysis walks over its tree, closes the global scope and applies the settings. -/
theorem exists_walking_of_analyze (h : analyze names t o envs = (names', .ok g)) :
    ∃ source : ScopeGraph Name, Walking t ⟨source, [.global]⟩ [t.root] ∧
      (∀ s, source.BindsArguments t (names'.handle "arguments") s) ∧
      g = (source.closeScope t .global).finalize
        ((GlobalSettings.ofFile o envs t.comments).mapNames names'.handle) := by
  obtain ⟨-, source, -, hwalking, harguments, -, hg⟩ :=
    walkInvariant_true.of_analyze (fun _ => trivial) h
  exact ⟨source, hwalking, harguments, hg⟩

theorem analyzed_of_analyze (h : analyze names t o envs = (names', .ok g)) :
    g.Analyzed t (names'.handle "arguments") := by
  obtain ⟨source, hwalking, harguments, rfl⟩ := exists_walking_of_analyze h
  exact ScopeGraph.analyzed_finalize hwalking harguments _

/-- The analysis of a given program, from a given name table, with a property that can be
computed. -/
theorem exists_analysis_from (names : NameTable) (b : Build NodeId) (o : LanguageOptions)
    (envs : Environments) (p : Tree → NameTable → ScopeGraph Name → Prop)
    [∀ t names' g, Decidable (p t names' g)]
    (h : ((Build.tree b).toOption.any fun t => (analyze names t o envs).2.toOption.any fun g =>
      decide (p t (analyze names t o envs).1 g)) = true) :
    ∃ t names' g, Build.tree b = .ok t ∧ analyze names t o envs = (names', .ok g) ∧
      p t names' g := by
  cases ht : Build.tree b with
  | error e =>
    rw [ht] at h
    cases h
  | ok t =>
    rw [ht] at h
    change (analyze names t o envs).2.toOption.any _ = true at h
    cases hg : (analyze names t o envs).2 with
    | error e =>
      rw [hg] at h
      cases h
    | ok g =>
      rw [hg] at h
      exact ⟨t, _, g, rfl, Prod.ext rfl hg, of_decide_eq_true h⟩

theorem exists_analysis (b : Build NodeId) (o : LanguageOptions) (envs : Environments)
    (p : Tree → NameTable → ScopeGraph Name → Prop) [∀ t names g, Decidable (p t names g)]
    (h : ((Build.tree b).toOption.any fun t => (analyze {} t o envs).2.toOption.any fun g =>
      decide (p t (analyze {} t o envs).1 g)) = true) :
    ∃ t names g, Build.tree b = .ok t ∧ analyze {} t o envs = (names, .ok g) ∧ p t names g :=
  exists_analysis_from {} b o envs p h

end Analyze

end LexicalScope
