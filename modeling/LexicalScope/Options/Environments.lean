import LexicalScope.Table.Slots

/-!
Environments: named sets of globals that a host provides. A registry maps names to presets; a
preset registered under a name that is taken replaces the former one.
-/
namespace LexicalScope

structure EnvironmentPreset where
  readonly : List String := []
  writable : List String := []
deriving DecidableEq

namespace EnvironmentPreset

/-- Every name with its writability, the readonly names first. -/
def toList (p : EnvironmentPreset) : List (String × Bool) :=
  p.readonly.map (·, false) ++ p.writable.map (·, true)

def size (p : EnvironmentPreset) : Nat :=
  p.readonly.length + p.writable.length

def isEmpty (p : EnvironmentPreset) : Bool :=
  p.readonly.isEmpty && p.writable.isEmpty

def languageGlobals : List String :=
  ["AggregateError", "Array", "ArrayBuffer", "Atomics", "BigInt", "BigInt64Array",
   "BigUint64Array", "Boolean", "DataView", "Date", "decodeURI", "decodeURIComponent",
   "encodeURI", "encodeURIComponent", "Error", "escape", "eval", "EvalError",
   "FinalizationRegistry", "Float32Array", "Float64Array", "Function", "globalThis", "Infinity",
   "Int16Array", "Int32Array", "Int8Array", "Intl", "isFinite", "isNaN", "JSON", "Map", "Math",
   "NaN", "Number", "Object", "parseFloat", "parseInt", "Promise", "Proxy", "RangeError",
   "ReferenceError", "Reflect", "RegExp", "Set", "SharedArrayBuffer", "String", "Symbol",
   "SyntaxError", "TypeError", "Uint16Array", "Uint32Array", "Uint8Array", "Uint8ClampedArray",
   "undefined", "unescape", "URIError", "WeakMap", "WeakRef", "WeakSet"]

def nodeGlobals : List String :=
  ["__dirname", "__filename", "AbortController", "AbortSignal", "Buffer", "clearImmediate",
   "clearInterval", "clearTimeout", "console", "fetch", "global", "module", "process",
   "queueMicrotask", "require", "setImmediate", "setInterval", "setTimeout", "structuredClone",
   "TextDecoder", "TextEncoder", "URL", "URLSearchParams"]

def language : EnvironmentPreset where
  readonly := languageGlobals

/-- The names that a CommonJS module wrapper binds. -/
def commonjs : EnvironmentPreset where
  readonly := ["global", "module", "require"]
  writable := ["exports"]

def node : EnvironmentPreset where
  readonly := nodeGlobals
  writable := ["exports"]

end EnvironmentPreset

structure Environments where
  presets : Slots String EnvironmentPreset := {}

namespace Environments

def register (e : Environments) (name : String) (p : EnvironmentPreset) : Environments :=
  ⟨e.presets.set name p⟩

def get? (e : Environments) (name : String) : Option EnvironmentPreset :=
  e.presets.get? name

def contains (e : Environments) (name : String) : Bool :=
  (e.get? name).isSome

def size (e : Environments) : Nat :=
  e.presets.size

def isEmpty (e : Environments) : Bool :=
  e.size == 0

def builtin : Environments :=
  let none : Environments := {}
  ((none.register "builtin" .language).register "commonjs" .commonjs).register "node" .node

end Environments

end LexicalScope
