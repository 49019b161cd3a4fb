import LexicalScope.Directive.Table
import LexicalScope.Options.Environments
import LexicalScope.Options.LanguageOptions
import LexicalScope.Scope.Graph

/-!
Configured globals. After the walk, environments, configured names and directive comments enter
the global table, in this order and unless the source declares a name itself. The references
that waited for them are then bound, and implicit globals of names now present are dropped.
-/
namespace LexicalScope

/-- Everything that configures the globals of one file. -/
structure GlobalSettings (ν : Type) where
  /-- The names of the enabled environments with their writability, in priority order. -/
  presets : List (ν × Bool) := []
  configured : OrderedMap ν GlobalValue := {}
  inlined : OrderedMap ν InlineGlobal := {}
  exported : OrderedMap ν CommentId := {}

namespace GlobalSettings

/-- The settings of a file; unknown environments bring nothing in. -/
def ofFile (o : LanguageOptions) (envs : Environments) (comments : Array Comment) :
    GlobalSettings String :=
  let directives := DirectiveTable.ofComments comments
  { presets := (o.env.filterMap envs.get?).flatMap EnvironmentPreset.toList
    configured := o.globals
    inlined := directives.globals
    exported := directives.exported }

variable {ν : Type} [DecidableEq ν]

def names (g : GlobalSettings ν) : List ν :=
  g.inlined.keys ++ g.exported.keys ++ g.configured.keys ++ g.presets.map (·.1)

def mapNames {μ : Type} [DecidableEq μ] (f : ν → μ) (g : GlobalSettings ν) : GlobalSettings μ where
  presets := g.presets.map fun p => (f p.1, p.2)
  configured := g.configured.mapKeys f
  inlined := g.inlined.mapKeys f
  exported := g.exported.mapKeys f

end GlobalSettings

namespace ScopeGraph

variable {ν : Type} [DecidableEq ν]

/-- A name from an environment. Configured names and names already present take precedence. -/
def applyPreset (configured : OrderedMap ν GlobalValue) (g : ScopeGraph ν) (preset : ν × Bool) :
    ScopeGraph ν :=
  let (name, isWritable) := preset
  if configured.contains name || (g.globalVariable? name).isSome then g
  else
    let (g, v) := g.bind .global name
    g.modifyVariable v fun v =>
      { v with
        writable := some isWritable
        implicitGlobalSetting := some (.ofBool isWritable) }

/-- Changes the global of `name`, a new one if there is none, unless the source declares it. -/
def configure (g : ScopeGraph ν) (name : ν) (f : Variable ν → Variable ν) : ScopeGraph ν :=
  let (bound, v) := g.bind .global name
  if (bound.getVariable? v).any Variable.isDeclared then g else bound.modifyVariable v f

/-- A configured name. `off` has its effect by hiding the name from environments. -/
def applyConfigured (g : ScopeGraph ν) (entry : ν × GlobalValue) : ScopeGraph ν :=
  let (name, value) := entry
  if value.isOff then g
  else
    g.configure name fun v =>
      { v with
        writable := some value.isWritable
        implicitGlobalSetting := some value
        explicitGlobal := false
        explicitGlobalComments := [] }

def applyInlined (g : ScopeGraph ν) (entry : ν × InlineGlobal) : ScopeGraph ν :=
  let (name, inlined) := entry
  if inlined.value.isOff then g
  else
    g.configure name fun v =>
      { v with
        writable := some inlined.value.isWritable
        explicitGlobal := true
        explicitGlobalComments := inlined.comments }

/-- An exported name counts as used; it never makes a variable. -/
def applyExported (g : ScopeGraph ν) (name : ν) : ScopeGraph ν :=
  match g.globalVariable? name with
  | some v => g.modifyVariable v fun v => { v with used := true, exported := true }
  | none => g

def settleThrough (g : ScopeGraph ν) (r : ReferenceId) : ScopeGraph ν :=
  match (g.getReference? r).bind (g.globalVariable? ·.name) with
  | some v => g.link r v
  | none => g.modifyScope .global fun s => { s with through := s.through.push r }

def resolveThrough (g : ScopeGraph ν) : ScopeGraph ν :=
  let through := g.globalScope?.elim #[] (·.through)
  through.foldl settleThrough (g.modifyScope .global fun s => { s with through := #[] })

def pruneImplicit (g : ScopeGraph ν) : ScopeGraph ν :=
  let isAbsent := fun name => (g.globalVariable? name).isNone
  { g with
    implicit := {
      table := g.implicit.table.retain fun name _ => isAbsent name
      left := g.implicit.left.filter fun r => (g.getReference? r).any (isAbsent ·.name) } }

def finalize (g : ScopeGraph ν) (settings : GlobalSettings ν) : ScopeGraph ν :=
  let g := settings.presets.foldl (applyPreset settings.configured) g
  let g := settings.configured.toList.foldl applyConfigured g
  let g := settings.inlined.toList.foldl applyInlined g
  let g := settings.exported.keys.foldl applyExported g
  g.resolveThrough.pruneImplicit

end ScopeGraph

end LexicalScope
