import LexicalScope.Text.Xid

/-!
Identifier names of JavaScript: a start character, then any number of part characters. Keywords
are identifier names too.
-/
namespace LexicalScope

def isIdentifierStart (c : Char) : Bool :=
  c = '$' || c = '_' || Unicode.isXidStart c

def isIdentifierPart (c : Char) : Bool :=
  c = '$' || Unicode.isXidContinue c

def isIdentifierName : List Char → Bool
  | [] => false
  | c :: rest => isIdentifierStart c && rest.all isIdentifierPart

end LexicalScope
