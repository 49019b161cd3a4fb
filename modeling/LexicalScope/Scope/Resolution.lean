import LexicalScope.Scope.Graph

/-!
Closing scopes. A scope that closes binds its pending references to the variables of its table
and hands the others on to the scope around it. A `with` body hands on everything and taints it.
The global scope binds only names whose definitions are all lexical; the others wait until the
configured globals are known.
-/
namespace LexicalScope.ScopeGraph

variable {ν : Type} [DecidableEq ν]

def delegate (g : ScopeGraph ν) (s : ScopeId) (r : ReferenceId) : ScopeGraph ν :=
  let upper := (g.getScope? s).bind (·.upper)
  let handed := upper.elim g (g.modifyScope · fun u => { u with pending := u.pending.push r })
  handed.modifyScope s fun s => { s with through := s.through.push r }

/-- The body of the function whose scope `s` is; the scope around a program has none. -/
def functionBody? (g : ScopeGraph ν) (t : Tree) (s : ScopeId) : Option NodeId :=
  match g.getScope? s with
  | some { kind := .function, block, .. } => (t.kind? block).bind NodeKind.functionBody?
  | _ => none

/-- Whether a reference in `s` may stand for a variable of `s`. From the parameter list of a
function the declarations in its body cannot be seen. -/
def isVisible (g : ScopeGraph ν) (t : Tree) (s : ScopeId) (r : Reference ν) (v : VariableId) :
    Bool :=
  match g.functionBody? t s with
  | none => true
  | some body =>
    t.isWithin body r.identifier ||
      !(g.getVariable? v).any fun v => v.definitions.all fun d => t.isWithin body d.name

def resolution? (g : ScopeGraph ν) (t : Tree) (s : ScopeId) (r : ReferenceId) :
    Option VariableId := do
  let reference ← g.getReference? r
  let v ← g.inTable? s reference.name
  if g.isVisible t s reference v then v else none

def settle (t : Tree) (s : ScopeId) (g : ScopeGraph ν) (r : ReferenceId) : ScopeGraph ν :=
  match g.resolution? t s r with
  | some v => g.link r v
  | none => g.delegate s r

def taint (g : ScopeGraph ν) (r : ReferenceId) : ScopeGraph ν :=
  g.modifyReference r fun r => { r with tainted := true }

/-- Whether the global scope binds a name without waiting for configuration. -/
def isBoundLexically (g : ScopeGraph ν) (s : ScopeId) (name : ν) : Bool :=
  ((g.inTable? s name).bind g.getVariable?).any Variable.isLexical

def declareSite (s : ScopeId) (g : ScopeGraph ν) (r : ReferenceId) : ScopeGraph ν :=
  match g.getReference? r with
  | some { name, site := some site, .. } =>
    if (g.inTable? s name).isSome then g
    else g.declareImplicit name
      { kind := .implicitGlobal, name := site.pattern, node := site.node }
  | _ => g

/-- Binds a reference in the global scope, or leaves it to the configured globals. -/
def settleGlobal (t : Tree) (s : ScopeId) (g : ScopeGraph ν) (r : ReferenceId) : ScopeGraph ν :=
  if (g.getReference? r).any (g.isBoundLexically s ·.name) then g.settle t s r
  else g.modifyScope s fun s => { s with through := s.through.push r }

def closeGlobal (t : Tree) (g : ScopeGraph ν) (s : ScopeId) (pending : Array ReferenceId) :
    ScopeGraph ν :=
  let g := pending.foldl (declareSite s) g
  let g := { g with implicit := { g.implicit with left := pending } }
  pending.foldl (settleGlobal t s) g

def closeScope (t : Tree) (g : ScopeGraph ν) (s : ScopeId) : ScopeGraph ν :=
  match g.getScope? s with
  | none => g
  | some scope =>
    let g := g.modifyScope s fun s => { s with pending := #[] }
    match scope.kind with
    | .global => g.closeGlobal t s scope.pending
    | .withBody => scope.pending.foldl (fun g r => (g.taint r).delegate s r) g
    | _ => scope.pending.foldl (settle t s) g

end LexicalScope.ScopeGraph
