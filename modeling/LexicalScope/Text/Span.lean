/-!
Half-open ranges of bytes in a source text.
-/
namespace LexicalScope

/-- The bytes from `start` up to but without `stop`; `0..0` where there is no source text. -/
structure Span where
  start : Nat := 0
  stop : Nat := 0
deriving DecidableEq

namespace Span

def length (s : Span) : Nat :=
  s.stop - s.start

def isEmpty (s : Span) : Bool :=
  s.start == s.stop

def encloses (outer inner : Span) : Bool :=
  outer.start ≤ inner.start && inner.stop ≤ outer.stop

def text (s : Span) : String :=
  toString s.start ++ ".." ++ toString s.stop

end Span

end LexicalScope
