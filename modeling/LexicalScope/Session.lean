import LexicalScope.SourceFile

/-!
Sessions: queries about one file at a time. A file is analysed at the first query that needs its
graph, and the outcome, good or bad, is kept until the next file is loaded or the session is
reset. Files with the same table number share their names.
-/
namespace LexicalScope

/-- The innermost scope around a node; for a program the outermost one anchored at it. -/
def ScopeGraph.scopeAt {ν : Type} (g : ScopeGraph ν) (t : Tree) (n : NodeId) : ScopeId :=
  ((n :: t.ancestors n).findSome? (g.acquire · !t.isProgram n)).getD .global

/-- Whether `n` refers to the global `name` and the source does not declare that global. -/
def ScopeGraph.isGlobalReference {ν : Type} [DecidableEq ν] (g : ScopeGraph ν) (name : ν)
    (n : NodeId) : Bool :=
  ((g.globalVariable? name).bind g.getVariable?).any fun v =>
    !v.isDeclared && v.references.any fun r => (g.getReference? r).any (·.identifier = n)

structure ActiveFile where
  file : SourceFile
  options : LanguageOptions
  environments : Environments
  /-- The outcome of the one analysis of this file. -/
  built : Option (Except ScopeError Analysis) := none

structure Session where
  names : NamePool := {}
  active : Option ActiveFile := none

namespace Session

/-- Loads a file in place of the one loaded before; nothing is analysed yet. -/
def init (s : Session) (file : SourceFile) (options : LanguageOptions)
    (environments : Environments) : Session :=
  { s with active := some { file, options, environments } }

def reset (s : Session) : Session :=
  { s with active := none }

def isActive (s : Session) : Bool :=
  s.active.isSome

def isBuilt (s : Session) : Bool :=
  s.active.any (·.built.isSome)

def file? (s : Session) : Option SourceFile :=
  s.active.map (·.file)

/-- Analyses the loaded file unless that has been done. -/
def build (s : Session) : Session × Except ScopeError (SourceFile × Analysis) :=
  match s.active with
  | none => (s, .error .noActiveFile)
  | some a =>
    match a.built with
    | some outcome => (s, outcome.map (a.file, ·))
    | none =>
      let (names, outcome) := a.file.analyze s.names a.options a.environments
      ({ names, active := some { a with built := some outcome } }, outcome.map (a.file, ·))

/-- Queries may fail, but what a failed query has analysed stays analysed. -/
abbrev Query := ExceptT ScopeError (StateM Session)

namespace Query

def loaded : Query (SourceFile × Analysis) := fun s =>
  let (s, outcome) := s.build
  (outcome, s)

def analysis : Query Analysis := do
  return (← loaded).2

def loadedAt (n : NodeId) : Query (SourceFile × ScopeGraph Name) := do
  let (file, a) ← loaded
  if file.tree.contains n then return (file, a.graph)
  else throw (.unknownNode n file.tree.size)

def declaredVariables (n : NodeId) : Query (List VariableId) := do
  let (_, g) ← loadedAt n
  return g.declaredVariables n

def acquire (n : NodeId) (inner : Bool) : Query (Option ScopeId) := do
  let (_, g) ← loadedAt n
  return g.acquire n inner

def scopeAt (n : NodeId) : Query ScopeId := do
  let (file, g) ← loadedAt n
  return g.scopeAt file.tree n

def isGlobalReference (n : NodeId) : Query Bool := do
  let (file, g) ← loadedAt n
  let table := (← get).names.table file.table
  return ((file.tree.identifierName? n).bind table.get?).any (g.isGlobalReference · n)

/-- Not supported: the use of a variable follows from its references and exports alone. -/
def markVariableUsed (_name : String) (_node : NodeId) : Query Bool :=
  throw (.notImplemented "mark_variable_used")

end Query

end Session

end LexicalScope
