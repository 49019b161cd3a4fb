import LexicalScope.Proofs.CheckedOutline
import LexicalScope.Proofs.Ranges
import LexicalScope.Scope.Cursor

/-!
Building a scope graph with checks. The steps of a walk, the closing of scopes and the settings of
a file are taken down once more, now by look-ups and changes that stop everything where a list has
no element of the given number. In a graph that is in range they never stop: each of them ends in
the same graph as the operation without checks, again in range.
-/
namespace LexicalScope.Checked

variable {ν : Type}

section Definitions

def modifyScope (g : ScopeGraph ν) (s : ScopeId) (f : Scope ν → Scope ν) :
    Option (ScopeGraph ν) :=
  (g.getScope? s).map fun _ => g.modifyScope s f

def modifyVariable (g : ScopeGraph ν) (v : VariableId) (f : Variable ν → Variable ν) :
    Option (ScopeGraph ν) :=
  (g.getVariable? v).map fun _ => g.modifyVariable v f

def modifyReference (g : ScopeGraph ν) (r : ReferenceId) (f : Reference ν → Reference ν) :
    Option (ScopeGraph ν) :=
  (g.getReference? r).map fun _ => g.modifyReference r f

def openScope (t : Tree) (g : ScopeGraph ν) (kind : ScopeKind) (block : NodeId) (strict : Bool)
    (upper : Option ScopeId) : Option (ScopeGraph ν) := do
  let _ ← t.kind? block
  let _ ← upper.mapM g.getScope?
  return g.openScope kind block strict upper

def addReference (g : ScopeGraph ν) (r : Reference ν) : Option (ScopeGraph ν) := do
  let id := g.nextReference
  let entered ← modifyScope g r.origin fun s =>
    { s with references := s.references.push id, pending := s.pending.push id }
  return { entered with references := entered.references.push { r with id } }

def link (g : ScopeGraph ν) (r : ReferenceId) (v : VariableId) : Option (ScopeGraph ν) := do
  let reference ← g.getReference? r
  let resolved ← modifyReference g r fun r => { r with resolved := some v }
  modifyVariable resolved v fun v =>
    { v with references := v.references.push r, tainted := v.tainted || reference.tainted }

def delegate (g : ScopeGraph ν) (s : ScopeId) (r : ReferenceId) : Option (ScopeGraph ν) := do
  let scope ← g.getScope? s
  let handed ← scope.upper.elim (some g)
    (modifyScope g · fun u => { u with pending := u.pending.push r })
  modifyScope handed s fun s => { s with through := s.through.push r }

def taint (g : ScopeGraph ν) (r : ReferenceId) : Option (ScopeGraph ν) :=
  modifyReference g r fun r => { r with tainted := true }

def define (g : ScopeGraph ν) (v : VariableId) (d : Definition) : Option (ScopeGraph ν) := do
  let defined ← modifyVariable g v (·.define d)
  let declared := defined.declared.insert d.node v
  return { defined with declared := d.parent.elim declared (declared.insert · v) }

def functionBody? (g : ScopeGraph ν) (t : Tree) (s : ScopeId) : Option (Option NodeId) := do
  let scope ← g.getScope? s
  if scope.kind = .function then return (← t.kind? scope.block).functionBody? else return none

def isVisible (g : ScopeGraph ν) (t : Tree) (s : ScopeId) (r : Reference ν) (v : VariableId) :
    Option Bool := do
  match ← functionBody? g t s with
  | none => return true
  | some body =>
    let binding ← g.getVariable? v
    return t.isWithin body r.identifier || !binding.definitions.all fun d => t.isWithin body d.name

variable [DecidableEq ν]

def inTable? (g : ScopeGraph ν) (s : ScopeId) (name : ν) : Option (Option VariableId) :=
  (g.getScope? s).map (·.table.get? name)

def bind (g : ScopeGraph ν) (s : ScopeId) (name : ν) : Option (ScopeGraph ν × VariableId) := do
  match ← inTable? g s name with
  | some v => return (g, v)
  | none =>
    let v := g.nextVariable
    let entered ← modifyScope (g.addVariable s name) s fun s =>
      { s with table := s.table.insert name v }
    return (entered, v)

def bindImplicit (g : ScopeGraph ν) (name : ν) : Option (ScopeGraph ν × VariableId) := do
  let _ ← g.globalScope?
  return g.bindImplicit name

def declare (g : ScopeGraph ν) (s : ScopeId) (name : ν) (definition : Option Definition) :
    Option (ScopeGraph ν) := do
  let (bound, v) ← bind g s name
  definition.elim (some bound) (define bound v)

def declareImplicit (g : ScopeGraph ν) (name : ν) (definition : Definition) :
    Option (ScopeGraph ν) := do
  let (bound, v) ← bindImplicit g name
  define bound v definition

def resolution? (g : ScopeGraph ν) (t : Tree) (s : ScopeId) (r : ReferenceId) :
    Option (Option VariableId) := do
  let reference ← g.getReference? r
  match ← inTable? g s reference.name with
  | none => return none
  | some v => return if ← isVisible g t s reference v then some v else none

def settle (t : Tree) (s : ScopeId) (g : ScopeGraph ν) (r : ReferenceId) :
    Option (ScopeGraph ν) := do
  match ← resolution? g t s r with
  | some v => link g r v
  | none => delegate g s r

def isBoundLexically (g : ScopeGraph ν) (s : ScopeId) (name : ν) : Option Bool := do
  match ← inTable? g s name with
  | none => return false
  | some v => return (← g.getVariable? v).isLexical

def declareSite (s : ScopeId) (g : ScopeGraph ν) (r : ReferenceId) : Option (ScopeGraph ν) := do
  match ← g.getReference? r with
  | { name, site := some site, .. } =>
    match ← inTable? g s name with
    | some _ => return g
    | none =>
      declareImplicit g name { kind := .implicitGlobal, name := site.pattern, node := site.node }
  | _ => return g

def settleGlobal (t : Tree) (s : ScopeId) (g : ScopeGraph ν) (r : ReferenceId) :
    Option (ScopeGraph ν) := do
  let reference ← g.getReference? r
  if ← isBoundLexically g s reference.name then settle t s g r
  else modifyScope g s fun s => { s with through := s.through.push r }

def closeGlobal (t : Tree) (g : ScopeGraph ν) (s : ScopeId) (pending : Array ReferenceId) :
    Option (ScopeGraph ν) := do
  let declared ← pending.toList.foldlM (declareSite s) g
  let emptied := { declared with implicit := { declared.implicit with left := pending } }
  pending.toList.foldlM (settleGlobal t s) emptied

def closeScope (t : Tree) (g : ScopeGraph ν) (s : ScopeId) : Option (ScopeGraph ν) := do
  let scope ← g.getScope? s
  let emptied ← modifyScope g s fun s => { s with pending := #[] }
  match scope.kind with
  | .global => closeGlobal t emptied s scope.pending
  | .withBody =>
    scope.pending.toList.foldlM (fun g r => do delegate (← taint g r) s r) emptied
  | _ => scope.pending.toList.foldlM (settle t s) emptied

end Definitions

variable [DecidableEq ν] {t : Tree} {g g₁ g₂ : ScopeGraph ν}

/-- A computation with checks ends in the graph of the one without. That graph is in range, and no
list in it is shorter than before. -/
structure Safe (t : Tree) (g : ScopeGraph ν) (x : Option (ScopeGraph ν)) (g' : ScopeGraph ν) :
    Prop where
  eq : x = some g'
  inRange : g'.InRange t
  le : g.sizes t ≤ g'.sizes t

namespace Safe

theorem pure (h : g.InRange t) : Safe t g (some g) g :=
  ⟨rfl, h, Sizes.le_refl _⟩

theorem lt_scopes {x : Option (ScopeGraph ν)} (h : Safe t g x g₁) {n : Nat}
    (hn : n < g.scopes.size) : n < g₁.scopes.size :=
  Nat.lt_of_lt_of_le hn h.le.scopes

theorem trans {x y : Option (ScopeGraph ν)} (h : Safe t g x g₁) (h' : Safe t g₁ y g₂) :
    Safe t g y g₂ :=
  ⟨h'.eq, h'.inRange, Sizes.le_trans h.le h'.le⟩

theorem bind {x : Option (ScopeGraph ν)} {f : ScopeGraph ν → Option (ScopeGraph ν)}
    (h : Safe t g x g₁) (h' : Safe t g₁ (f g₁) g₂) : Safe t g (x >>= f) g₂ := by
  rw [h.eq]
  exact h.trans h'

/-- A loop is safe if its body is safe in every graph that the loop may have grown to. -/
theorem foldlM {α : Type} {f' : ScopeGraph ν → α → Option (ScopeGraph ν)}
    {f : ScopeGraph ν → α → ScopeGraph ν} {l : List α} (h : g.InRange t)
    (hstep : ∀ g', g'.InRange t → g.sizes t ≤ g'.sizes t → ∀ x ∈ l,
      Safe t g' (f' g' x) (f g' x)) :
    Safe t g (l.foldlM f' g) (l.foldl f g) := by
  induction l generalizing g with
  | nil => exact pure h
  | cons x l ih =>
    have hx := hstep g h (Sizes.le_refl _) x (List.mem_cons_self ..)
    rw [List.foldlM_cons, List.foldl_cons]
    exact hx.bind (ih hx.inRange fun g' hg' hle y hy =>
      hstep g' hg' (Sizes.le_trans hx.le hle) y (List.mem_cons_of_mem _ hy))

end Safe

section Sizes

variable {ν : Type} {t : Tree} {g : ScopeGraph ν}

theorem sizes_modifyScope (s : ScopeId) (f : Scope ν → Scope ν) :
    (g.modifyScope s f).sizes t = g.sizes t := by
  simp [ScopeGraph.sizes, ScopeGraph.modifyScope]

theorem sizes_modifyVariable (v : VariableId) (f : Variable ν → Variable ν) :
    (g.modifyVariable v f).sizes t = g.sizes t := by
  simp [ScopeGraph.sizes, ScopeGraph.modifyVariable]

theorem sizes_modifyReference (r : ReferenceId) (f : Reference ν → Reference ν) :
    (g.modifyReference r f).sizes t = g.sizes t := by
  simp [ScopeGraph.sizes, ScopeGraph.modifyReference]

theorem sizes_openScope (kind : ScopeKind) (block : NodeId) (strict : Bool)
    (upper : Option ScopeId) : (g.openScope kind block strict upper).sizes t =
      { g.sizes t with scopes := g.scopes.size + 1 } := by
  cases upper <;> simp [ScopeGraph.sizes, ScopeGraph.openScope, ScopeGraph.modifyScope]

theorem sizes_addReference (r : Reference ν) :
    (g.addReference r).sizes t = { g.sizes t with references := g.references.size + 1 } := by
  simp [ScopeGraph.sizes, ScopeGraph.addReference, ScopeGraph.modifyScope]

theorem sizes_addVariable (s : ScopeId) (name : ν) :
    (g.addVariable s name).sizes t = { g.sizes t with bindings := g.bindings.size + 1 } := by
  simp [ScopeGraph.sizes, ScopeGraph.addVariable]

end Sizes

theorem Safe.of_le {x : Option (ScopeGraph ν)} {g' : ScopeGraph ν} (h : g.InRange t)
    (heq : x = some g') (hle : g.sizes t ≤ g'.sizes t)
    (hfits : g.Fits (g'.sizes t) → g'.Fits (g'.sizes t)) : Safe t g x g' :=
  ⟨heq, hfits (h.mono hle), hle⟩

section Primitives

/-- A change that keeps all lengths is safe if it keeps what the graph stores in range. -/
theorem Safe.of_sizes_eq {g' : ScopeGraph ν} (hsizes : g'.sizes t = g.sizes t)
    (h : g'.Fits (g.sizes t)) : Safe t g (some g') g' where
  eq := rfl
  inRange := by rwa [ScopeGraph.InRange, hsizes]
  le := hsizes ▸ Sizes.le_refl _

/-- A change that keeps a scope in range keeps the graph in range. -/
theorem safe_modifyScope (h : g.InRange t) {s : ScopeId} (hs : s.index < g.scopes.size)
    {f : Scope ν → Scope ν} (hf : ∀ s, s.Fits (g.sizes t) → (f s).Fits (g.sizes t)) :
    Safe t g (modifyScope g s f) (g.modifyScope s f) := by
  obtain ⟨scope, hscope⟩ := ScopeGraph.exists_getScope? hs
  rw [modifyScope, hscope]
  exact .of_sizes_eq (sizes_modifyScope s f) (h.modifyScope s hf)

theorem safe_modifyVariable (h : g.InRange t) {v : VariableId} (hv : v.index < g.bindings.size)
    {f : Variable ν → Variable ν} (hf : ∀ v, v.Fits (g.sizes t) → (f v).Fits (g.sizes t)) :
    Safe t g (modifyVariable g v f) (g.modifyVariable v f) := by
  obtain ⟨binding, hbinding⟩ := ScopeGraph.exists_getVariable? hv
  rw [modifyVariable, hbinding]
  exact .of_sizes_eq (sizes_modifyVariable v f) (h.modifyVariable v hf)

theorem safe_modifyReference (h : g.InRange t) {r : ReferenceId}
    (hr : r.index < g.references.size) {f : Reference ν → Reference ν}
    (hf : ∀ r, r.Fits (g.sizes t) → (f r).Fits (g.sizes t)) :
    Safe t g (modifyReference g r f) (g.modifyReference r f) := by
  obtain ⟨reference, hreference⟩ := ScopeGraph.exists_getReference? hr
  rw [modifyReference, hreference]
  exact .of_sizes_eq (sizes_modifyReference r f) (h.modifyReference r hf)

/-- A scope opened at a node of the tree, inside a scope that exists, is in range. -/
theorem safe_openScope (h : g.InRange t) (kind : ScopeKind) {block : NodeId}
    (hblock : t.contains block) (strict : Bool) {upper : Option ScopeId}
    (hupper : ∀ u ∈ upper, u.index < g.scopes.size) :
    Safe t g (openScope t g kind block strict upper) (g.openScope kind block strict upper) := by
  obtain ⟨found, hfound⟩ := exists_kind? hblock
  have hsizes := sizes_openScope (t := t) (g := g) kind block strict upper
  refine .of_le h ?_ ?_ fun hfits => hfits.openScope ?_ ?_ strict fun u hu => ?_
  · cases upper with
    | none => simp only [openScope, hfound, Option.mapM_none, Option.bind_eq_bind]; rfl
    | some u =>
      obtain ⟨scope, hscope⟩ := ScopeGraph.exists_getScope? (hupper u rfl)
      simp only [openScope, hfound, hscope, Option.mapM_some, Option.bind_eq_bind]; rfl
  · rw [hsizes]
    exact { Sizes.le_refl (g.sizes t) with scopes := Nat.le_succ _ }
  · rw [hsizes]
    exact Nat.lt_succ_self _
  · rw [hsizes]
    exact of_decide_eq_true hblock
  · rw [hsizes]
    exact Nat.lt_succ_of_lt (hupper u hu)

theorem safe_addReference (h : g.InRange t) {reference : Reference ν}
    (hreference : reference.Fits ((g.addReference reference).sizes t)) :
    Safe t g (addReference g reference) (g.addReference reference) := by
  have hsizes := sizes_addReference (t := t) (g := g) reference
  have horigin : reference.origin.index < g.scopes.size := by
    have horigin := hreference.origin
    rwa [hsizes] at horigin
  obtain ⟨scope, hscope⟩ := ScopeGraph.exists_getScope? horigin
  refine .of_le h ?_ ?_ fun hfits => hfits.addReference ?_ hreference
  · rw [addReference, modifyScope, hscope]
    rfl
  · rw [hsizes]
    exact { Sizes.le_refl (g.sizes t) with references := Nat.le_succ _ }
  · rw [hsizes]
    exact Nat.lt_succ_self _

/-- Binding a reference looks up both ends. -/
theorem safe_link (h : g.InRange t) {r : ReferenceId} (hr : r.index < g.references.size)
    {v : VariableId} (hv : v.index < g.bindings.size) :
    Safe t g (link g r v) (g.link r v) := by
  obtain ⟨reference, hreference⟩ := ScopeGraph.exists_getReference? hr
  unfold link ScopeGraph.link
  rw [hreference, Option.bind_eq_bind, Option.bind_some, Option.any_some]
  have hresolved := safe_modifyReference h hr (f := fun r => { r with resolved := some v })
    fun reference' h' => { h' with resolved := fun _ hv' => Option.mem_some_iff.1 hv' ▸ hv }
  refine hresolved.bind (safe_modifyVariable hresolved.inRange ?_ fun binding hbinding => ?_)
  · exact hv
  · rw [sizes_modifyReference] at hbinding ⊢
    exact { hbinding with references := forall_mem_push hbinding.references hr }

theorem safe_delegate (h : g.InRange t) {s : ScopeId} (hs : s.index < g.scopes.size)
    {r : ReferenceId} (hr : r.index < g.references.size) :
    Safe t g (delegate g s r) (g.delegate s r) := by
  obtain ⟨scope, hscope⟩ := ScopeGraph.exists_getScope? hs
  unfold delegate ScopeGraph.delegate
  rw [hscope, Option.bind_eq_bind, Option.bind_some, Option.bind_some]
  have hhanded : Safe t g
      (scope.upper.elim (some g) (modifyScope g · fun u => { u with pending := u.pending.push r }))
      (scope.upper.elim g (g.modifyScope · fun u => { u with pending := u.pending.push r })) := by
    cases hupper : scope.upper with
    | none => exact .pure h
    | some u =>
      exact safe_modifyScope h ((h.of_getScope? hscope).upper u hupper) fun s hs =>
        { hs with pending := forall_mem_push hs.pending hr }
  refine hhanded.bind (safe_modifyScope hhanded.inRange ?_ fun s hs =>
    { hs with through := forall_mem_push hs.through ?_ })
  · exact hhanded.lt_scopes hs
  · exact Nat.lt_of_lt_of_le hr hhanded.le.references

theorem safe_taint (h : g.InRange t) {r : ReferenceId} (hr : r.index < g.references.size) :
    Safe t g (taint g r) (g.taint r) :=
  safe_modifyReference h hr fun _ hreference => { hreference with }

/-- What a `with` body does with a reference. -/
theorem safe_handOver (h : g.InRange t) {s : ScopeId} (hs : s.index < g.scopes.size)
    {r : ReferenceId} (hr : r.index < g.references.size) :
    Safe t g (do delegate (← taint g r) s r) ((g.taint r).delegate s r) := by
  have htaint := safe_taint h hr
  exact htaint.bind (safe_delegate htaint.inRange (htaint.lt_scopes hs)
    (Nat.lt_of_lt_of_le hr htaint.le.references))

theorem safe_define (h : g.InRange t) {v : VariableId} (hv : v.index < g.bindings.size)
    {d : Definition} (hd : d.Fits (g.sizes t)) : Safe t g (define g v d) (g.define v d) := by
  obtain ⟨binding, hbinding⟩ := ScopeGraph.exists_getVariable? hv
  have hsizes : (g.define v d).sizes t = g.sizes t := by
    simp [ScopeGraph.sizes, ScopeGraph.define, ScopeGraph.modifyVariable]
  have hdefined := Safe.of_sizes_eq hsizes (ScopeGraph.Fits.define h hv hd)
  refine ⟨?_, hdefined.inRange, hdefined.le⟩
  rw [define, modifyVariable, hbinding]
  rfl

end Primitives

section Declare

/-- What a binding with checks comes to: the variable that it finds or makes exists. -/
structure SafeBinding (t : Tree) (g : ScopeGraph ν) (x : Option (ScopeGraph ν × VariableId))
    (bound : ScopeGraph ν × VariableId) : Prop where
  eq : x = some bound
  safe : Safe t g (some bound.1) bound.1
  lt : bound.2.index < bound.1.bindings.size

theorem inTable?_eq {s : ScopeId} (hs : s.index < g.scopes.size) (name : ν) :
    inTable? g s name = some (g.inTable? s name) := by
  obtain ⟨scope, hscope⟩ := ScopeGraph.exists_getScope? hs
  rw [inTable?, ScopeGraph.inTable?, hscope]
  rfl

/-- Binding a name gives a variable that exists. -/
theorem safe_bind (h : g.InRange t) {s : ScopeId} (hs : s.index < g.scopes.size) (name : ν) :
    SafeBinding t g (bind g s name) (g.bind s name) := by
  have hfits {b : Sizes} (hg : g.Fits b) (hroom : g.bindings.size < b.bindings)
      (hb : s.index < b.scopes) := hg.bind hroom hb name
  unfold bind ScopeGraph.bind at *
  simp only [inTable?_eq hs, Option.bind_eq_bind, Option.bind_some]
  cases hname : g.inTable? s name with
  | some v => exact ⟨rfl, .pure h, h.of_inTable? hname⟩
  | none =>
    obtain ⟨scope, hscope⟩ := ScopeGraph.exists_getScope? hs
    rw [hname] at hfits
    have hsizes := (sizes_modifyScope (t := t) (g := g.addVariable s name) s fun s =>
      { s with table := s.table.insert name g.nextVariable }).trans (sizes_addVariable s name)
    refine ⟨?_, .of_le h rfl ?_ fun hg => hfits hg ?_ ?_, ?_⟩
    · simp only [modifyScope, show (g.addVariable s name).getScope? s = some scope from hscope]
      rfl
    · rw [hsizes]
      exact { Sizes.le_refl (g.sizes t) with bindings := Nat.le_succ _ }
    · rw [hsizes]
      exact Nat.lt_succ_self _
    · rw [hsizes]
      exact hs
    · exact Nat.lt_of_lt_of_eq (Nat.lt_succ_self _) (congrArg Sizes.bindings hsizes).symm

theorem safe_bindImplicit (h : g.InRange t) (hglobal : 0 < g.scopes.size) (name : ν) :
    SafeBinding t g (bindImplicit g name) (g.bindImplicit name) := by
  have hfits {b : Sizes} (hg : g.Fits b) (hroom : g.bindings.size < b.bindings)
      (hb : 0 < b.scopes) := hg.bindImplicit hroom hb name
  obtain ⟨scope, hscope⟩ : ∃ scope, g.globalScope? = some scope :=
    ScopeGraph.exists_getScope? hglobal
  rw [bindImplicit, hscope, Option.bind_eq_bind, Option.bind_some]
  unfold ScopeGraph.bindImplicit at *
  cases hname : g.implicit.table.get? name with
  | some v => exact ⟨rfl, .pure h, h.implicit name v hname⟩
  | none =>
    rw [hname] at hfits
    have hsizes := sizes_addVariable (t := t) (g := g) .global name
    refine ⟨rfl, .of_le h rfl ?_ fun hg => hfits hg ?_ hglobal, ?_⟩
    · exact hsizes ▸ { Sizes.le_refl (g.sizes t) with bindings := Nat.le_succ _ }
    · exact Nat.lt_of_lt_of_eq (Nat.lt_succ_self _) (congrArg Sizes.bindings hsizes).symm
    · exact Nat.lt_of_lt_of_eq (Nat.lt_succ_self _) (congrArg Sizes.bindings hsizes).symm

/-- What is done with a variable comes after it is bound. -/
theorem SafeBinding.bind {x : Option (ScopeGraph ν × VariableId)}
    {bound : ScopeGraph ν × VariableId} (h : SafeBinding t g x bound)
    {f : ScopeGraph ν × VariableId → Option (ScopeGraph ν)} {g' : ScopeGraph ν}
    (h' : Safe t bound.1 (f bound) g') : Safe t g (x >>= f) g' := by
  rw [h.eq]
  exact h.safe.trans h'

theorem safe_declare (h : g.InRange t) {s : ScopeId} (hs : s.index < g.scopes.size) (name : ν)
    {definition : Option Definition} (hdefinition : ∀ d ∈ definition, d.Fits (g.sizes t)) :
    Safe t g (declare g s name definition) (g.declare s name definition) := by
  have hbound := safe_bind h hs name
  refine hbound.bind ?_
  cases definition with
  | none => exact .pure hbound.safe.inRange
  | some d =>
    exact safe_define hbound.safe.inRange hbound.lt ((hdefinition d rfl).mono hbound.safe.le)

theorem safe_declareImplicit (h : g.InRange t) (hglobal : 0 < g.scopes.size) (name : ν)
    {d : Definition} (hd : d.Fits (g.sizes t)) :
    Safe t g (declareImplicit g name d) (g.declareImplicit name d) := by
  have hbound := safe_bindImplicit h hglobal name
  exact hbound.bind (safe_define hbound.safe.inRange hbound.lt (hd.mono hbound.safe.le))

end Declare

section Resolution

variable {s : ScopeId} {r : ReferenceId}

theorem functionBody?_eq (h : g.InRange t) (hs : s.index < g.scopes.size) :
    functionBody? g t s = some (g.functionBody? t s) := by
  obtain ⟨scope, hscope⟩ := ScopeGraph.exists_getScope? hs
  obtain ⟨found, hfound⟩ := exists_kind? (decide_eq_true (h.of_getScope? hscope).block)
  rw [ScopeGraph.functionBody?_eq g t hscope]
  simp only [functionBody?, hscope, hfound, Option.bind_eq_bind, Option.bind_some]
  split <;> rfl

theorem isVisible_eq (h : g.InRange t) (hs : s.index < g.scopes.size) (reference : Reference ν)
    {v : VariableId} (hv : v.index < g.bindings.size) :
    isVisible g t s reference v = some (g.isVisible t s reference v) := by
  obtain ⟨binding, hbinding⟩ := ScopeGraph.exists_getVariable? hv
  rw [isVisible, functionBody?_eq h hs, ScopeGraph.isVisible]
  cases g.functionBody? t s with
  | none => rfl
  | some body =>
    simp only [Option.bind_eq_bind, Option.bind_some, hbinding]
    rfl

/-- Resolving a reference looks up what exists. -/
theorem resolution?_eq (h : g.InRange t) (hs : s.index < g.scopes.size)
    (hr : r.index < g.references.size) :
    resolution? g t s r = some (g.resolution? t s r) := by
  obtain ⟨reference, hreference⟩ := ScopeGraph.exists_getReference? hr
  simp only [resolution?, ScopeGraph.resolution?, hreference, inTable?_eq hs, Option.bind_eq_bind,
    Option.bind_some]
  cases hname : g.inTable? s reference.name with
  | none => rfl
  | some v =>
    simp only [isVisible_eq h hs reference (h.of_inTable? hname), Option.bind_some]
    rfl

/-- A reference resolves to a variable that exists. -/
theorem lt_of_resolution? (h : g.InRange t) {v : VariableId}
    (hv : g.resolution? t s r = some v) : v.index < g.bindings.size := by
  obtain ⟨reference, -, hv⟩ := Option.bind_eq_some_iff.1 hv
  obtain ⟨v', hname, hv⟩ := Option.bind_eq_some_iff.1 hv
  split at hv
  · exact Option.some.inj hv ▸ h.of_inTable? hname
  · cases hv

/-- Settling a reference that exists succeeds. -/
theorem safe_settle (h : g.InRange t) (hs : s.index < g.scopes.size)
    (hr : r.index < g.references.size) : Safe t g (settle t s g r) (g.settle t s r) := by
  rw [settle, resolution?_eq h hs hr, ScopeGraph.settle, Option.bind_eq_bind, Option.bind_some]
  cases hresolution : g.resolution? t s r with
  | none => exact safe_delegate h hs hr
  | some v => exact safe_link h hr (lt_of_resolution? h hresolution)

theorem isBoundLexically_eq (h : g.InRange t) (hs : s.index < g.scopes.size) (name : ν) :
    isBoundLexically g s name = some (g.isBoundLexically s name) := by
  rw [isBoundLexically, inTable?_eq hs, ScopeGraph.isBoundLexically, Option.bind_eq_bind,
    Option.bind_some]
  cases hname : g.inTable? s name with
  | none => rfl
  | some v =>
    obtain ⟨binding, hbinding⟩ := ScopeGraph.exists_getVariable? (h.of_inTable? hname)
    simp only [hbinding, Option.bind_some]
    rfl

theorem safe_declareSite (h : g.InRange t) (hs : s.index < g.scopes.size)
    (hr : r.index < g.references.size) : Safe t g (declareSite s g r) (g.declareSite s r) := by
  obtain ⟨reference, hreference⟩ := ScopeGraph.exists_getReference? hr
  have hsite := (h.of_getReference? hreference).site
  obtain ⟨id, identifier, name, origin, resolved, access, writeExpr, partialWrite, init, tainted,
    site⟩ := reference
  unfold declareSite ScopeGraph.declareSite
  rw [hreference, Option.bind_eq_bind, Option.bind_some]
  cases site with
  | none => exact .pure h
  | some site =>
    simp only [inTable?_eq hs, Option.bind_eq_bind, Option.bind_some]
    cases g.inTable? s name with
    | some v => exact .pure h
    | none =>
      obtain ⟨hpattern, hnode⟩ := hsite site rfl
      exact safe_declareImplicit h (Nat.zero_lt_of_lt hs) name
        ⟨hpattern, hnode, fun _ hp => absurd hp (Option.not_mem_none _)⟩

theorem safe_settleGlobal (h : g.InRange t) (hs : s.index < g.scopes.size)
    (hr : r.index < g.references.size) :
    Safe t g (settleGlobal t s g r) (g.settleGlobal t s r) := by
  obtain ⟨reference, hreference⟩ := ScopeGraph.exists_getReference? hr
  simp only [settleGlobal, ScopeGraph.settleGlobal, hreference, isBoundLexically_eq h hs,
    Option.bind_eq_bind, Option.bind_some, Option.any_some]
  split
  · exact safe_settle h hs hr
  · exact safe_modifyScope h hs fun s hs => { hs with through := forall_mem_push hs.through hr }

/-- A loop over references of the graph, about a scope of the graph. -/
theorem safe_foldlM {f' : ScopeGraph ν → ReferenceId → Option (ScopeGraph ν)}
    {f : ScopeGraph ν → ReferenceId → ScopeGraph ν} (h : g.InRange t)
    (hs : s.index < g.scopes.size) {pending : Array ReferenceId}
    (hpending : ∀ r ∈ pending, r.index < g.references.size)
    (hstep : ∀ g' : ScopeGraph ν, g'.InRange t → s.index < g'.scopes.size → ∀ r : ReferenceId,
      r.index < g'.references.size → Safe t g' (f' g' r) (f g' r)) :
    Safe t g (pending.toList.foldlM f' g) (pending.foldl f g) := by
  rw [← Array.foldl_toList]
  refine .foldlM h fun g' hg' hle r hr => hstep g' hg' ?_ r ?_
  · exact Nat.lt_of_lt_of_le hs hle.scopes
  · exact Nat.lt_of_lt_of_le (hpending r (Array.mem_toList_iff.1 hr)) hle.references

theorem safe_closeGlobal (h : g.InRange t) (hs : s.index < g.scopes.size)
    {pending : Array ReferenceId} (hpending : ∀ r ∈ pending, r.index < g.references.size) :
    Safe t g (closeGlobal t g s pending) (g.closeGlobal t s pending) := by
  have hdeclared : Safe t g (pending.toList.foldlM (declareSite s) g)
      (pending.foldl (ScopeGraph.declareSite s) g) :=
    safe_foldlM h hs hpending fun g' hg' hs r hr => safe_declareSite hg' hs hr
  unfold closeGlobal ScopeGraph.closeGlobal
  generalize pending.foldl (ScopeGraph.declareSite s) g = declared at hdeclared ⊢
  have hpending' (r : ReferenceId) (hr : r ∈ pending) :=
    Nat.lt_of_lt_of_le (hpending r hr) hdeclared.le.references
  have hleft : Safe t declared (some _)
      { declared with implicit := { declared.implicit with left := pending } } :=
    .of_sizes_eq rfl { hdeclared.inRange with left := hpending' }
  exact hdeclared.bind (hleft.trans (safe_foldlM hleft.inRange
    (hdeclared.lt_scopes hs) hpending' fun g' hg' hs r hr =>
      safe_settleGlobal hg' hs hr))

/-- Closing a scope that exists succeeds, as all that waits in it exists. -/
theorem safe_closeScope (h : g.InRange t) (hs : s.index < g.scopes.size) :
    Safe t g (closeScope t g s) (g.closeScope t s) := by
  obtain ⟨scope, hscope⟩ := ScopeGraph.exists_getScope? hs
  have hemptied := safe_modifyScope h hs (f := fun s => { s with pending := #[] })
    fun s hs => { hs with pending := nofun }
  have hs' := hemptied.lt_scopes hs
  have hpending (r : ReferenceId) (hr : r ∈ scope.pending) :=
    Nat.lt_of_lt_of_le ((h.of_getScope? hscope).pending r hr) hemptied.le.references
  simp only [closeScope, ScopeGraph.closeScope, hscope, Option.bind_eq_bind, Option.bind_some]
  refine hemptied.bind ?_
  cases scope.kind with
  | global => exact safe_closeGlobal hemptied.inRange hs' hpending
  | withBody =>
    exact safe_foldlM hemptied.inRange hs' hpending fun g' hg' hs r hr => safe_handOver hg' hs hr
  | _ => exact safe_foldlM hemptied.inRange hs' hpending fun g' hg' hs r hr => safe_settle hg' hs hr

end Resolution

end LexicalScope.Checked
