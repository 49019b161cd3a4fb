import LexicalScope.Proofs.Grounding
import LexicalScope.Proofs.Spelling
import LexicalScope.Proofs.Strictness

/-!
What references record of writes. Every reference comes from one occurrence of the walk and keeps
what this occurrence says, together with the strictness of its scope at that moment. No scope ever
becomes strict or sloppy later, so the record agrees with the finished graph: an assignment outside
of a declaration can create a global where its scope is sloppy, and nothing else can.
-/
namespace LexicalScope

variable {ν : Type}

def Occurrence.reference (o : Occurrence ν) (id : ReferenceId) (origin : ScopeId) (strict : Bool) :
    Reference ν where
  id
  identifier := o.identifier
  name := o.name
  origin
  access := o.access
  writeExpr := o.writeExpr
  partialWrite := o.partialWrite
  init := o.init
  site := if strict then none else o.assignment.map (⟨o.identifier, ·⟩)

/-- What a reference records of a write fits together, given whether its scope is strict. -/
structure Reference.IsCoherent (r : Reference ν) (t : Tree) (strict : Bool) : Prop where
  isSome_site : r.site.isSome ↔ r.access.isWriteOnly ∧ r.init = false ∧ strict = false
  site : ∀ site ∈ r.site, site.pattern = r.identifier ∧ t.assigns site.node
  readOnly : r.access.isReadOnly → r.writeExpr = none ∧ r.partialWrite = false ∧ r.init = false
  writeOnly : r.access.isWriteOnly → r.writeExpr.isSome
  readWrite : r.access.isReadWrite → r.partialWrite = false ∧ r.init = false

theorem Reference.isCoherent_unlinked {r : Reference ν} {t : Tree} {strict : Bool} :
    r.unlinked.IsCoherent t strict ↔ r.IsCoherent t strict :=
  ⟨fun h => ⟨h.1, h.2, h.3, h.4, h.5⟩, fun h => ⟨h.1, h.2, h.3, h.4, h.5⟩⟩

/-- Each way to refer to a variable leaves a coherent record. Only a write that stands for an
assignment has a site. -/
theorem Tree.Uses.isCoherent {t : Tree} {o : Occurrence ν} (h : t.Uses o) (id : ReferenceId)
    (origin : ScopeId) (strict : Bool) : (o.reference id origin strict).IsCoherent t strict := by
  cases h with
  | assign hn hexpr hnode =>
    refine ⟨?_, fun site hsite => ?_, nofun, fun _ => rfl, nofun⟩
    · cases strict <;> simp [Occurrence.reference, Access.isWriteOnly]
    · cases strict with
      | true => cases hsite
      | false =>
        obtain rfl := Option.mem_some_iff.1 hsite
        exact ⟨rfl, hnode⟩
  | read hn =>
    refine ⟨?_, ?_, fun _ => ⟨rfl, rfl, rfl⟩, nofun, nofun⟩ <;>
      cases strict <;> simp [Occurrence.reference, Access.isWriteOnly, Access.read, Access.write]
  | update hn hexpr =>
    refine ⟨?_, ?_, nofun, nofun, fun _ => ⟨rfl, rfl⟩⟩ <;>
      cases strict <;>
        simp [Occurrence.reference, Access.isWriteOnly, Access.readWrite, Access.write]
  | initialise hn hexpr =>
    refine ⟨?_, ?_, nofun, fun _ => rfl, nofun⟩ <;>
      cases strict <;> simp [Occurrence.reference]

namespace ScopeGraph

/-- Every reference stands in a scope of the graph and is made by an occurrence in the trace, with
the strictness that this scope has. -/
def Records (g : ScopeGraph ν) (trace : List (Located ν)) : Prop :=
  ∀ id r, g.getReference? id = some r → (g.getScope? r.origin).isSome ∧
    ∃ blocks o, ⟨blocks, .refer o⟩ ∈ trace ∧
      r.unlinked = o.reference r.id r.origin (g.isStrict r.origin)

variable {g g' : ScopeGraph ν} {trace : List (Located ν)}

theorem SameTree.isSome_getScope? (h : g.SameTree g') (s : ScopeId) :
    (g'.getScope? s).isSome = (g.getScope? s).isSome :=
  h.samePositions.isSome_getScope? s

namespace Records

theorem mono (h : g.Records trace) {trace' : List (Located ν)} (hsub : trace ⊆ trace') :
    g.Records trace' := by
  intro id r hr
  obtain ⟨horigin, blocks, o, hmem, heq⟩ := h id r hr
  exact ⟨horigin, blocks, o, hsub hmem, heq⟩

/-- Neither linking references nor changing anything but the tree of scopes matters. -/
theorem congr (h : g.Records trace) (hsame : g.SameTree g')
    (hreference : ∀ id,
      (g'.getReference? id).map Reference.unlinked = (g.getReference? id).map Reference.unlinked) :
    g'.Records trace := by
  intro id r' hr'
  have hmap := hreference id
  rw [hr', Option.map_some, eq_comm, Option.map_eq_some_iff] at hmap
  obtain ⟨r, hr, heq⟩ := hmap
  obtain ⟨horigin, blocks, o, hmem, hrecord⟩ := h id r hr
  have hid : r.unlinked.id = r'.unlinked.id := congrArg Reference.id heq
  have hscope : r.unlinked.origin = r'.unlinked.origin := congrArg Reference.origin heq
  change r.id = r'.id at hid
  change r.origin = r'.origin at hscope
  rw [heq, hid, hscope] at hrecord
  exact ⟨by rw [hsame.isSome_getScope?, ← hscope, horigin], blocks, o, hmem,
    by rw [hsame.isStrict, hrecord]⟩

variable [DecidableEq ν]

/-- The closing of scopes and the settings leave what a reference records. -/
theorem stable (trace : List (Located ν)) : Stable fun g : ScopeGraph ν => g.Records trace where
  modifyScope hf _ _ h := congr h (.modifyScope hf _) fun _ => rfl
  modifyReference {g r f} hf h := by
    refine congr h ⟨fun _ => rfl, rfl⟩ fun id => ?_
    rw [getReference?_modifyReference]
    split
    · cases g.getReference? id <;> simp [hf]
    · rfl
  modifyVariable _ h := congr h ⟨fun _ => rfl, rfl⟩ fun _ => rfl
  bindGlobal h := congr h (.bind _ _ _) fun _ => by rw [getReference?_bind]
  declareImplicit {g _ reference _ d} _ _ _ _ h := by
    refine congr h (.declareImplicit _ _ _) fun id => ?_
    unfold declareImplicit bindImplicit
    cases g.implicit.table.get? reference.name <;> rfl
  setImplicit _ _ h := congr h ⟨fun _ => rfl, rfl⟩ fun _ => rfl

omit [DecidableEq ν] in
/-- A new scope changes no record of a reference. -/
theorem openScope (h : g.Records trace) (kind : ScopeKind) (block : NodeId) (strict : Bool)
    (upper : Option ScopeId) : (g.openScope kind block strict upper).Records trace := by
  intro id r hr
  rw [getReference?_openScope] at hr
  obtain ⟨horigin, blocks, o, hmem, hrecord⟩ := h id r hr
  have hne := ne_nextScope_of_lt (isSome_getScope?_iff.1 horigin)
  have horigin' := congrArg Option.isSome (position_openScope kind block strict upper hne)
  rw [Option.isSome_map, Option.isSome_map] at horigin'
  exact ⟨horigin'.trans horigin, blocks, o, hmem, by rw [isStrict_openScope _ hne, hrecord]⟩

end Records

variable [DecidableEq ν]

/-- The references of a walk record its occurrences. -/
theorem walkInvariant_records (t : Tree) :
    WalkInvariant t fun (trace : List (Located ν)) c => c.graph.Records trace where
  enter _ hc _ _ _ := (hc.openScope _ _ _ _).mono (List.subset_append_left ..)
  close _ hc _ := (Records.stable _).closeScope t _ hc
  declare _ hc _ name d :=
    (hc.congr (.declare _ _ name d) fun _ => by rw [getReference?_declare]).mono
      (List.subset_append_left ..)
  refer {trace c blocks} h hc o := by
    have hsame : c.graph.SameTree (c.graph.addReference (c.reference o)) := .addReference _ _
    intro id r hr
    rw [getReference?_addReference] at hr
    rw [hsame.isSome_getScope?, hsame.isStrict]
    split at hr
    · obtain rfl := Option.some.inj hr
      exact ⟨isSome_getScope?_iff.2 h.lt_size, blocks, o,
        List.mem_append_right _ (List.mem_singleton_self _), rfl⟩
    · exact hc.mono (List.subset_append_left ..) id r hr
  this {trace c _} _ hc :=
    (hc.congr (.modifyScope (by exact fun _ => rfl) _) fun _ => rfl).mono
      (List.subset_append_left ..)
  misplacedImport _ hc _ := hc.mono (List.subset_append_left ..)

end ScopeGraph

section Analyze

variable {names names' : NameTable} {t : Tree} {o : LanguageOptions} {envs : Environments}
  {g : ScopeGraph Name}

/-- Every reference of an analysed file stands in a scope and records a use of its identifier,
which spells its name. -/
theorem exists_use_of_analyze (h : analyze names t o envs = (names', .ok g)) {id : ReferenceId}
    {r : Reference Name} (hr : g.getReference? id = some r) :
    (g.getScope? r.origin).isSome ∧ ∃ occurrence : Occurrence Name, t.Uses occurrence ∧
      t.Spells r.identifier (names'.resolve r.name) ∧
      r.unlinked = occurrence.reference r.id r.origin (g.isStrict r.origin) := by
  obtain ⟨outline, source, houtline, -, -, hsource, rfl⟩ :=
    (ScopeGraph.walkInvariant_records (ν := Name) t).of_analyze
      (fun _ _ _ hr => nomatch hr) h
  obtain ⟨horigin, blocks, occurrence, hmem, hrecord⟩ :=
    (ScopeGraph.Records.stable _).conclude t _ hsource id r hr
  have hspelled := spelled_of_analyze h houtline hmem
  obtain ⟨⟨blocks', step⟩, hlocated, heq⟩ := List.mem_map.1 hmem
  obtain ⟨-, hstep⟩ := Located.mk.inj heq
  have hgrounded := Step.isGrounded_mapName names'.handle (grounded_of_mem_trace houtline hlocated)
  rw [hstep] at hgrounded
  have hidentifier : r.identifier = occurrence.identifier := congrArg Reference.identifier hrecord
  have hname : r.name = occurrence.name := congrArg Reference.name hrecord
  exact ⟨horigin, occurrence, hgrounded, by rwa [hidentifier, hname], hrecord⟩

/-- What the references of an analysed file record of writes is coherent with their accesses and
scopes, and their names are those of their identifiers. -/
theorem isCoherent_of_analyze (h : analyze names t o envs = (names', .ok g)) {id : ReferenceId}
    {r : Reference Name} (hr : g.getReference? id = some r) :
    ∃ scope, g.getScope? r.origin = some scope ∧ r.IsCoherent t scope.isStrict ∧
      t.kind? r.identifier = some (.identifier (names'.resolve r.name)) := by
  obtain ⟨horigin, occurrence, huse, hspells, hrecord⟩ := exists_use_of_analyze h hr
  obtain ⟨scope, hscope⟩ := Option.isSome_iff_exists.1 horigin
  refine ⟨scope, hscope, ?_, ?_⟩
  · have hstrict : g.isStrict r.origin = scope.isStrict := by
      rw [ScopeGraph.isStrict, hscope, Option.any_some]
    rw [← Reference.isCoherent_unlinked, hrecord, hstrict]
    exact huse.isCoherent _ _ _
  · obtain ⟨kind, hkind, hname⟩ := Option.bind_eq_some_iff.1 hspells
    cases kind with
    | identifier name => rw [hkind, Option.some.inj hname]
    | _ => cases hname

/-- `[a = null] = b; function f() { "use strict"; c = null; }` -/
def sloppyAndStrict : Build NodeId := do
  let element ← .alloc (.assignmentPattern (← .identifier "a") (← .null))
  let left ← .alloc (.arrayPattern [some element])
  let sloppy ← .alloc (.assignmentExpression .assign left (← .identifier "b"))
  let strict ← .alloc (.assignmentExpression .assign (← .identifier "c") (← .null))
  let f ← .functionDeclaration (some "f") []
    [← .directive "use strict", ← .alloc (.expressionStatement strict none)]
  .alloc (.program [← .alloc (.expressionStatement sloppy none), f] .script)

/-- The default of `a` has the whole assignment as the node that can create a global. The
assignment to `c` cannot create one, as its function is strict. -/
theorem site_sloppyAndStrict : ∃ t names g a c, Build.tree sloppyAndStrict = .ok t ∧
    analyze {} t {} {} = (names, .ok g) ∧ g.getReference? ⟨0⟩ = some a ∧
    g.getReference? ⟨3⟩ = some c ∧
    (∃ site ∈ a.site, site.pattern = a.identifier ∧ t.assigns site.node) ∧ c.site = none := by
  obtain ⟨t, names, g, ht, h, ha, hc⟩ := exists_analysis sloppyAndStrict {} {}
    (fun _ _ g =>
      (g.getReference? ⟨0⟩).any (fun a => a.access.isWriteOnly && !a.init && !g.isStrict a.origin) ∧
      (g.getReference? ⟨3⟩).any fun c => g.isStrict c.origin) (by decide +kernel)
  rw [Option.any_eq_true] at ha hc
  obtain ⟨a, ha, hwrite⟩ := ha
  obtain ⟨c, hc, hstrict⟩ := hc
  simp only [Bool.and_eq_true, Bool.not_eq_true'] at hwrite
  obtain ⟨aScope, haScope, haCoherent, -⟩ := isCoherent_of_analyze h ha
  obtain ⟨cScope, hcScope, hcCoherent, -⟩ := isCoherent_of_analyze h hc
  rw [ScopeGraph.isStrict, haScope, Option.any_some] at hwrite
  rw [ScopeGraph.isStrict, hcScope, Option.any_some] at hstrict
  refine ⟨t, names, g, a, c, ht, h, ha, hc, ?_, ?_⟩
  · have hsite := haCoherent.isSome_site.2 ⟨hwrite.1.1, hwrite.1.2, hwrite.2⟩
    obtain ⟨site, hsite⟩ := Option.isSome_iff_exists.1 hsite
    exact ⟨site, hsite, haCoherent.site site hsite⟩
  · rw [← Option.not_isSome_iff_eq_none, hcCoherent.isSome_site, hstrict]
    exact fun hsloppy => Bool.noConfusion hsloppy.2.2

end Analyze

end LexicalScope
