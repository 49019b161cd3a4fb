import LexicalScope.Analysis

/-!
Source files: trees that share the name tables of a pool. Analysing a file leaves its names in
the table that the file uses, and the analysis keeps using that table.
-/
namespace LexicalScope

/-- A tree whose names are in the table with the given number. -/
structure SourceFile where
  tree : Tree
  table : TableId

def NamePool.load (p : NamePool) (t : Tree) (table : TableId) : NamePool × SourceFile :=
  (p.set table ((p.table table).addAll t.mentionedNames), ⟨t, table⟩)

/-- A scope graph whose names are in the table with the given number. -/
structure Analysis where
  graph : ScopeGraph Name
  table : TableId

namespace SourceFile

def analyze (f : SourceFile) (p : NamePool) (o : LanguageOptions) (envs : Environments) :
    NamePool × Except ScopeError Analysis :=
  let (names, outcome) := LexicalScope.analyze (p.table f.table) f.tree o envs
  (p.set f.table names, outcome.map (⟨·, f.table⟩))

end SourceFile

end LexicalScope
