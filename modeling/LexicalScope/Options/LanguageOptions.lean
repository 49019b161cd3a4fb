import LexicalScope.Options.GlobalValue
import LexicalScope.Syntax.Keyword
import LexicalScope.Table.OrderedMap

/-!
The language options of one file. An option that is not set leaves the choice to the program:
its own source type holds, and only CommonJS wraps the file in a function.
-/
namespace LexicalScope

structure LanguageOptions where
  sourceType : Option SourceType := none
  /-- Enabled environments, the first one having priority. -/
  env : List String := []
  globals : OrderedMap String GlobalValue := {}
  impliedStrict : Bool := false
  globalReturn : Option Bool := none

namespace LanguageOptions

def sourceTypeFor (o : LanguageOptions) (program : SourceType) : SourceType :=
  o.sourceType.getD program

def isModuleFor (o : LanguageOptions) (program : SourceType) : Bool :=
  o.sourceTypeFor program = .module

/-- Whether a function scope lies around the whole of a program parsed as `program`. -/
def globalReturnFor (o : LanguageOptions) (program : SourceType) : Bool :=
  o.globalReturn.getD (o.sourceTypeFor program = .commonjs)

def withGlobal (o : LanguageOptions) (name : String) (value : GlobalValue) : LanguageOptions :=
  { o with globals := o.globals.insert name value }

end LanguageOptions

end LexicalScope
