import LexicalScope.Proofs.Updates
import LexicalScope.Scope.Globals

/-!
Ranges. The nodes and comments of a tree and the scopes, variables and references of a graph stand
in five lists, and everything that refers to one of them holds a number. A graph is in range if all
numbers stored in it are below the lengths of the lists that they refer to. A list never gets
shorter, so a number that is in range once remains so.
-/
namespace LexicalScope

/-- How many nodes, comments, scopes, variables and references there are. -/
structure Sizes where
  nodes : Nat
  comments : Nat
  scopes : Nat
  bindings : Nat
  references : Nat

/-- None of the lists is longer in the first than in the second. -/
structure Sizes.Le (b b' : Sizes) : Prop where
  nodes : b.nodes ≤ b'.nodes
  comments : b.comments ≤ b'.comments
  scopes : b.scopes ≤ b'.scopes
  bindings : b.bindings ≤ b'.bindings
  references : b.references ≤ b'.references

instance : LE Sizes := ⟨Sizes.Le⟩

theorem Sizes.le_refl (b : Sizes) : b ≤ b where
  nodes := Nat.le_refl _
  comments := Nat.le_refl _
  scopes := Nat.le_refl _
  bindings := Nat.le_refl _
  references := Nat.le_refl _

theorem Sizes.le_trans {b b' b'' : Sizes} (h : b ≤ b') (h' : b' ≤ b'') : b ≤ b'' where
  nodes := Nat.le_trans h.nodes h'.nodes
  comments := Nat.le_trans h.comments h'.comments
  scopes := Nat.le_trans h.scopes h'.scopes
  bindings := Nat.le_trans h.bindings h'.bindings
  references := Nat.le_trans h.references h'.references

def MultiMap.All {κ α : Type} [DecidableEq κ] (p : κ → Prop) (q : α → Prop) (m : MultiMap κ α) :
    Prop :=
  ∀ k list, m.lists.get? k = some list → p k ∧ ∀ v ∈ list, q v

namespace MultiMap.All

variable {κ α : Type} [DecidableEq κ] {p p' : κ → Prop} {q q' : α → Prop} {m : MultiMap κ α}
  {k : κ} {v : α}

theorem imp (h : m.All p q) (hp : ∀ k, p k → p' k) (hq : ∀ v, q v → q' v) : m.All p' q' :=
  fun k list hlist => ⟨hp k (h k list hlist).1, fun v hv => hq v ((h k list hlist).2 v hv)⟩

theorem of_mem_getD (h : m.All p q) (hv : v ∈ (m.lists.get? k).getD #[]) : q v := by
  cases hget : m.lists.get? k with
  | none => simp [hget] at hv
  | some list =>
    rw [hget] at hv
    exact (h k list hget).2 v hv

theorem insert [DecidableEq α] (h : m.All p q) (hk : p k) (hv : q v) : (m.insert k v).All p q := by
  unfold MultiMap.insert MultiMap.insertNew
  dsimp only
  split
  · exact h
  · intro k' list hlist
    dsimp only at hlist
    rw [Slots.get?_set] at hlist
    split at hlist
    · next heq =>
      obtain rfl := Option.some.inj hlist
      refine ⟨heq ▸ hk, fun v' hv' => ?_⟩
      rcases Array.mem_push.1 hv' with hv' | rfl
      · exact h.of_mem_getD hv'
      · exact hv
    · exact h k' list hlist

end MultiMap.All

def OrderedMap.All {κ α : Type} [DecidableEq κ] (q : α → Prop) (m : OrderedMap κ α) : Prop :=
  ∀ k, ∀ v ∈ m.get? k, q v

namespace OrderedMap.All

variable {κ α : Type} [DecidableEq κ] {q q' : α → Prop} {m : OrderedMap κ α}

theorem empty (q : α → Prop) : ({} : OrderedMap κ α).All q :=
  nofun

theorem imp (h : m.All q) (hq : ∀ v, q v → q' v) : m.All q' :=
  fun k v hv => hq v (h k v hv)

theorem insert (h : m.All q) (k : κ) {v : α} (hv : q v) : (m.insert k v).All q := by
  intro k' v' hv'
  rw [get?_insert] at hv'
  split at hv'
  · exact Option.mem_some_iff.1 hv' ▸ hv
  · exact h k' v' hv'

/-- The values of a map come from the list that it is made of. -/
theorem ofList {entries : List (κ × α)} (h : ∀ e ∈ entries, q e.2) : (ofList entries).All q := by
  have hfold (m : OrderedMap κ α) (hm : m.All q) :
      (entries.foldl (fun m e => m.insert e.1 e.2) m).All q := by
    induction entries generalizing m with
    | nil => exact hm
    | cons e entries ih =>
      obtain ⟨he, hentries⟩ := List.forall_mem_cons.1 h
      exact ih hentries (m.insert e.1 e.2) (hm.insert e.1 he)
  exact hfold {} (empty q)

theorem retain (h : m.All q) (keep : κ → α → Bool) : (m.retain keep).All q := by
  intro k v hv
  rw [get?_retain] at hv
  exact h k v (Option.filter_eq_some_iff.1 hv).1

theorem of_mem_toList (h : m.All q) {e : κ × α} (he : e ∈ m.toList) : q e.2 :=
  h e.1 e.2 ((m.mem_toList_iff e.1 e.2).1 he)

theorem mapKeys {μ : Type} [DecidableEq μ] (h : m.All q) (f : κ → μ) : (m.mapKeys f).All q :=
  ofList (List.forall_mem_map.2 fun _ he => h.of_mem_toList he)

end OrderedMap.All

section Arrays

variable {α : Type} {p : α → Prop} {l : Array α}

theorem forall_mem_push {x : α} (h : ∀ y ∈ l, p y) (hx : p x) : ∀ y ∈ l.push x, p y := by
  intro y hy
  rcases Array.mem_push.1 hy with hy | rfl
  · exact h y hy
  · exact hx

/-- What all elements have and the change keeps, all elements have after the change. -/
theorem forall_mem_modify {f : α → α} (h : ∀ x ∈ l, p x) (hf : ∀ x, p x → p (f x)) (i : Nat) :
    ∀ y ∈ l.modify i f, p y := by
  intro y hy
  obtain ⟨j, hj⟩ := Array.mem_iff_getElem?.1 hy
  rw [Array.getElem?_modify] at hj
  split at hj
  · obtain ⟨x, hx, rfl⟩ := Option.map_eq_some_iff.1 hj
    exact hf x (h x (Array.mem_of_getElem? hx))
  · exact h y (Array.mem_of_getElem? hj)

end Arrays

section Records

variable {ν : Type}

structure Scope.Fits [DecidableEq ν] (b : Sizes) (s : Scope ν) : Prop where
  id : s.id.index < b.scopes
  upper : ∀ u ∈ s.upper, u.index < b.scopes
  children : ∀ c ∈ s.children, c.index < b.scopes
  variableScope : s.variableScope.index < b.scopes
  block : s.block.index < b.nodes
  table : s.table.All (·.index < b.bindings)
  references : ∀ r ∈ s.references, r.index < b.references
  through : ∀ r ∈ s.through, r.index < b.references
  pending : ∀ r ∈ s.pending, r.index < b.references

structure Definition.Fits (b : Sizes) (d : Definition) : Prop where
  name : d.name.index < b.nodes
  node : d.node.index < b.nodes
  parent : ∀ p ∈ d.parent, p.index < b.nodes

structure Variable.Fits (b : Sizes) (v : Variable ν) : Prop where
  id : v.id.index < b.bindings
  scope : v.scope.index < b.scopes
  identifiers : ∀ n ∈ v.identifiers, n.index < b.nodes
  references : ∀ r ∈ v.references, r.index < b.references
  definitions : ∀ d ∈ v.definitions, d.Fits b
  comments : ∀ c ∈ v.explicitGlobalComments, c.index < b.comments

structure Reference.Fits (b : Sizes) (r : Reference ν) : Prop where
  id : r.id.index < b.references
  identifier : r.identifier.index < b.nodes
  origin : r.origin.index < b.scopes
  resolved : ∀ v ∈ r.resolved, v.index < b.bindings
  writeExpr : ∀ n ∈ r.writeExpr, n.index < b.nodes
  site : ∀ s ∈ r.site, s.pattern.index < b.nodes ∧ s.node.index < b.nodes

variable {b b' : Sizes}

theorem Scope.Fits.mono [DecidableEq ν] {s : Scope ν} (h : s.Fits b) (hb : b ≤ b') : s.Fits b' where
  id := Nat.lt_of_lt_of_le h.id hb.scopes
  upper u hu := Nat.lt_of_lt_of_le (h.upper u hu) hb.scopes
  children c hc := Nat.lt_of_lt_of_le (h.children c hc) hb.scopes
  variableScope := Nat.lt_of_lt_of_le h.variableScope hb.scopes
  block := Nat.lt_of_lt_of_le h.block hb.nodes
  table := h.table.imp fun _ hv => Nat.lt_of_lt_of_le hv hb.bindings
  references r hr := Nat.lt_of_lt_of_le (h.references r hr) hb.references
  through r hr := Nat.lt_of_lt_of_le (h.through r hr) hb.references
  pending r hr := Nat.lt_of_lt_of_le (h.pending r hr) hb.references

theorem Definition.Fits.mono {d : Definition} (h : d.Fits b) (hb : b ≤ b') : d.Fits b' where
  name := Nat.lt_of_lt_of_le h.name hb.nodes
  node := Nat.lt_of_lt_of_le h.node hb.nodes
  parent p hp := Nat.lt_of_lt_of_le (h.parent p hp) hb.nodes

theorem Variable.Fits.mono {v : Variable ν} (h : v.Fits b) (hb : b ≤ b') : v.Fits b' where
  id := Nat.lt_of_lt_of_le h.id hb.bindings
  scope := Nat.lt_of_lt_of_le h.scope hb.scopes
  identifiers n hn := Nat.lt_of_lt_of_le (h.identifiers n hn) hb.nodes
  references r hr := Nat.lt_of_lt_of_le (h.references r hr) hb.references
  definitions d hd := (h.definitions d hd).mono hb
  comments c hc := Nat.lt_of_lt_of_le (h.comments c hc) hb.comments

theorem Variable.Fits.define {v : Variable ν} (h : v.Fits b) {d : Definition} (hd : d.Fits b) :
    (v.define d).Fits b :=
  { h with
    identifiers := forall_mem_push h.identifiers hd.name
    definitions := forall_mem_push h.definitions hd }

theorem Reference.Fits.mono {r : Reference ν} (h : r.Fits b) (hb : b ≤ b') : r.Fits b' where
  id := Nat.lt_of_lt_of_le h.id hb.references
  identifier := Nat.lt_of_lt_of_le h.identifier hb.nodes
  origin := Nat.lt_of_lt_of_le h.origin hb.scopes
  resolved v hv := Nat.lt_of_lt_of_le (h.resolved v hv) hb.bindings
  writeExpr n hn := Nat.lt_of_lt_of_le (h.writeExpr n hn) hb.nodes
  site s hs :=
    ⟨Nat.lt_of_lt_of_le (h.site s hs).1 hb.nodes, Nat.lt_of_lt_of_le (h.site s hs).2 hb.nodes⟩

end Records

namespace ScopeGraph

variable {ν : Type}

section Lookup

variable {g : ScopeGraph ν}

theorem exists_getScope? {s : ScopeId} (hs : s.index < g.scopes.size) :
    ∃ scope, g.getScope? s = some scope :=
  ⟨_, Array.getElem?_eq_getElem hs⟩

theorem exists_getVariable? {v : VariableId} (hv : v.index < g.bindings.size) :
    ∃ binding, g.getVariable? v = some binding :=
  ⟨_, Array.getElem?_eq_getElem hv⟩

theorem exists_getReference? {r : ReferenceId} (hr : r.index < g.references.size) :
    ∃ reference, g.getReference? r = some reference :=
  ⟨_, Array.getElem?_eq_getElem hr⟩

end Lookup

variable [DecidableEq ν] {t : Tree} {g : ScopeGraph ν} {b b' : Sizes}

/-- Every number that the graph stores is below the length of the list that it refers to. -/
structure Fits (b : Sizes) (g : ScopeGraph ν) : Prop where
  scopes : ∀ s ∈ g.scopes, s.Fits b
  bindings : ∀ v ∈ g.bindings, v.Fits b
  references : ∀ r ∈ g.references, r.Fits b
  anchors : g.anchors.All (·.index < b.nodes) (·.index < b.scopes)
  declared : g.declared.All (·.index < b.nodes) (·.index < b.bindings)
  implicit : g.implicit.table.All (·.index < b.bindings)
  left : ∀ r ∈ g.implicit.left, r.index < b.references

omit [DecidableEq ν] in
def sizes (t : Tree) (g : ScopeGraph ν) : Sizes where
  nodes := t.size
  comments := t.comments.size
  scopes := g.scopes.size
  bindings := g.bindings.size
  references := g.references.size

/-- Every number that the graph of a tree stores refers to something. -/
def InRange (t : Tree) (g : ScopeGraph ν) : Prop :=
  g.Fits (g.sizes t)

/-- An empty graph refers to nothing. -/
theorem inRange_empty (t : Tree) : ({} : ScopeGraph ν).InRange t where
  scopes := Array.forall_mem_empty _
  bindings := Array.forall_mem_empty _
  references := Array.forall_mem_empty _
  anchors := nofun
  declared := nofun
  implicit := nofun
  left := Array.forall_mem_empty _

namespace Fits

/-- What fits in a graph fits in a larger one. -/
theorem mono (h : g.Fits b) (hb : b ≤ b') : g.Fits b' where
  scopes s hs := (h.scopes s hs).mono hb
  bindings v hv := (h.bindings v hv).mono hb
  references r hr := (h.references r hr).mono hb
  anchors := h.anchors.imp (fun _ hn => Nat.lt_of_lt_of_le hn hb.nodes)
    fun _ hs => Nat.lt_of_lt_of_le hs hb.scopes
  declared := h.declared.imp (fun _ hn => Nat.lt_of_lt_of_le hn hb.nodes)
    fun _ hv => Nat.lt_of_lt_of_le hv hb.bindings
  implicit := h.implicit.imp fun _ hv => Nat.lt_of_lt_of_le hv hb.bindings
  left r hr := Nat.lt_of_lt_of_le (h.left r hr) hb.references

theorem of_getScope? (h : g.Fits b) {s : ScopeId} {scope : Scope ν}
    (hscope : g.getScope? s = some scope) : scope.Fits b :=
  h.scopes scope (Array.mem_of_getElem? hscope)

theorem of_getVariable? (h : g.Fits b) {v : VariableId} {binding : Variable ν}
    (hbinding : g.getVariable? v = some binding) : binding.Fits b :=
  h.bindings binding (Array.mem_of_getElem? hbinding)

theorem of_getReference? (h : g.Fits b) {r : ReferenceId} {reference : Reference ν}
    (hreference : g.getReference? r = some reference) : reference.Fits b :=
  h.references reference (Array.mem_of_getElem? hreference)

theorem of_inTable? (h : g.Fits b) {s : ScopeId} {name : ν} {v : VariableId}
    (hv : g.inTable? s name = some v) : v.index < b.bindings := by
  obtain ⟨scope, hscope, hname⟩ := Option.bind_eq_some_iff.1 hv
  exact (h.of_getScope? hscope).table name v hname

theorem modifyScope (h : g.Fits b) (s : ScopeId) {f : Scope ν → Scope ν}
    (hf : ∀ s, s.Fits b → (f s).Fits b) : (g.modifyScope s f).Fits b :=
  { h with scopes := forall_mem_modify h.scopes hf s.index }

theorem modifyVariable (h : g.Fits b) (v : VariableId) {f : Variable ν → Variable ν}
    (hf : ∀ v, v.Fits b → (f v).Fits b) : (g.modifyVariable v f).Fits b :=
  { h with bindings := forall_mem_modify h.bindings hf v.index }

theorem modifyReference (h : g.Fits b) (r : ReferenceId) {f : Reference ν → Reference ν}
    (hf : ∀ r, r.Fits b → (f r).Fits b) : (g.modifyReference r f).Fits b :=
  { h with references := forall_mem_modify h.references hf r.index }

/-- A new scope and the list of its children leave room for its number. -/
theorem openScope (h : g.Fits b) (hroom : g.scopes.size < b.scopes) {kind : ScopeKind}
    {block : NodeId} (hblock : block.index < b.nodes) (strict : Bool) {upper : Option ScopeId}
    (hupper : ∀ u ∈ upper, u.index < b.scopes) : (g.openScope kind block strict upper).Fits b := by
  have hentered : (upper.elim g fun u =>
      g.modifyScope u fun s => { s with children := s.children.push g.nextScope }).Fits b := by
    cases upper with
    | none => exact h
    | some u =>
      exact h.modifyScope u fun s hs =>
        { hs with children := forall_mem_push hs.children hroom }
  have hvariableScope : (if kind.holdsVars then g.nextScope
      else upper.elim g.nextScope g.variableScope).index < b.scopes := by
    split
    · exact hroom
    · cases upper with
      | none => exact hroom
      | some u =>
        rw [Option.elim_some, ScopeGraph.variableScope]
        cases hscope : g.getScope? u with
        | none => exact hupper u rfl
        | some scope => exact (h.of_getScope? hscope).variableScope
  exact { hentered with
    scopes := forall_mem_push hentered.scopes {
      id := hroom
      upper := hupper
      children := Array.forall_mem_empty _
      variableScope := hvariableScope
      block := hblock
      table := nofun
      references := Array.forall_mem_empty _
      through := Array.forall_mem_empty _
      pending := Array.forall_mem_empty _ }
    anchors := h.anchors.insert hblock hroom }

theorem addVariable (h : g.Fits b) (hroom : g.bindings.size < b.bindings) {s : ScopeId}
    (hs : s.index < b.scopes) (name : ν) : (g.addVariable s name).Fits b :=
  { h with
    bindings := forall_mem_push h.bindings {
      id := hroom
      scope := hs
      identifiers := Array.forall_mem_empty _
      references := Array.forall_mem_empty _
      definitions := Array.forall_mem_empty _
      comments := List.forall_mem_nil _ } }

theorem bind (h : g.Fits b) (hroom : g.bindings.size < b.bindings) {s : ScopeId}
    (hs : s.index < b.scopes) (name : ν) : (g.bind s name).1.Fits b := by
  unfold ScopeGraph.bind
  split
  · exact h
  · exact (h.addVariable hroom hs name).modifyScope s fun scope hscope =>
      { hscope with table := hscope.table.insert name hroom }

theorem bindImplicit (h : g.Fits b) (hroom : g.bindings.size < b.bindings)
    (hglobal : 0 < b.scopes) (name : ν) : (g.bindImplicit name).1.Fits b := by
  unfold ScopeGraph.bindImplicit
  split
  · exact h
  · exact { h.addVariable hroom hglobal name with implicit := h.implicit.insert name hroom }

/-- A definition in range may be added to any variable. -/
theorem define (h : g.Fits b) {v : VariableId} (hv : v.index < b.bindings) {d : Definition}
    (hd : d.Fits b) : (g.define v d).Fits b := by
  have hnode := h.declared.insert hd.node hv
  refine { h.modifyVariable v fun binding hbinding => hbinding.define hd with declared := ?_ }
  obtain ⟨kind, name, node, parent, index, rest, variableKind, typeOnly⟩ := d
  cases parent with
  | none => exact hnode
  | some p => exact hnode.insert (hd.parent p rfl) hv

theorem addReference (h : g.Fits b) (hroom : g.references.size < b.references)
    {reference : Reference ν} (hreference : reference.Fits b) :
    (g.addReference reference).Fits b := by
  have hentered : (g.modifyScope reference.origin fun s =>
      { s with
        references := s.references.push g.nextReference
        pending := s.pending.push g.nextReference }).Fits b :=
    h.modifyScope reference.origin fun s hs =>
      { hs with
        references := forall_mem_push hs.references hroom
        pending := forall_mem_push hs.pending hroom }
  exact { hentered with
    references := forall_mem_push h.references { hreference with id := hroom } }

end Fits

end ScopeGraph

end LexicalScope
