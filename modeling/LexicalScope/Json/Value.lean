import LexicalScope.Json.Number

/-!
Values of JSON, read only as far as their shape: scalars with their content, arrays and objects
without. Values that are read may nest 127 deep; values that are skipped may nest freely, and
their strings and numbers are checked more loosely.
-/
namespace LexicalScope.Json

inductive Shape where
  | null
  | boolean (value : Bool)
  | number (value : Number)
  | string (value : String)
  | sequence
  | map
deriving DecidableEq

abbrev Reader (α : Type) := List Char → Except Fault (α × List Char)

def isBlank (c : Char) : Bool :=
  c = ' ' || c = '\n' || c = '\t' || c = '\r'

def skipBlanks (s : List Char) : List Char :=
  s.dropWhile isBlank

def word (expected : String) (s : List Char) : Except Fault (List Char) :=
  if expected.toList.isPrefixOf s then .ok (s.drop expected.length)
  else if s.isPrefixOf expected.toList then .error .truncated
  else .error .malformed

def punctuation (expected : Char) (s : List Char) : Except Fault (List Char) :=
  match skipBlanks s with
  | [] => .error .truncated
  | c :: rest => if c = expected then .ok rest else .error .malformed

/-- Whether one more element follows in an array. The text is then left before it, else after
the closing bracket. -/
def nextElement (isFirst : Bool) : Reader Bool := fun s =>
  match skipBlanks s with
  | [] => .error .truncated
  | c :: rest =>
    if c = ']' then .ok (false, rest)
    else if isFirst then .ok (true, c :: rest)
    else if c ≠ ',' then .error .malformed
    else
      match skipBlanks rest with
      | [] => .error .truncated
      | d :: rest => if d = ']' then .error .malformed else .ok (true, d :: rest)

/-- Whether one more member follows in an object. The text is then left after the opening quote
of its key, else after the closing brace. -/
def nextKey (isFirst : Bool) : Reader Bool := fun s =>
  match skipBlanks s with
  | [] => .error .truncated
  | c :: rest =>
    if c = '\x7d' then .ok (false, rest)
    else if isFirst then if c = '"' then .ok (true, rest) else .error .malformed
    else if c ≠ ',' then .error .malformed
    else
      match skipBlanks rest with
      | [] => .error .truncated
      | d :: rest => if d = '"' then .ok (true, rest) else .error .malformed

def readString : Reader String := fun s =>
  (unquote s).map fun p => (String.ofList p.1, p.2)

/-- Reads `null`, `true`, `false`, a number or a string; none for the start of anything else. -/
def readScalar? (c : Char) (rest : List Char) : Option (Except Fault (Shape × List Char)) :=
  if c = 'n' then some ((word "ull" rest).map (.null, ·))
  else if c = 't' then some ((word "rue" rest).map (.boolean true, ·))
  else if c = 'f' then some ((word "alse" rest).map (.boolean false, ·))
  else if c = '-' then some ((Number.read true rest).map fun p => (.number p.1, p.2))
  else if c.isDigit then some ((Number.read false (c :: rest)).map fun p => (.number p.1, p.2))
  else if c = '"' then some ((readString rest).map fun p => (.string p.1, p.2))
  else none

mutual

/-- Reads a value that may nest `depth` deep. -/
def readValue : Nat → Nat → Reader Shape
  | 0, _, _ => .error .truncated
  | fuel + 1, depth, s =>
    match skipBlanks s with
    | [] => .error .truncated
    | c :: rest =>
      match readScalar? c rest with
      | some result => result
      | none =>
        if c = '[' then
          if depth = 0 then .error .malformed
          else (readElements fuel (depth - 1) true rest).map (.sequence, ·)
        else if c = '\x7b' then
          if depth = 0 then .error .malformed
          else (readMembers fuel (depth - 1) true rest).map (.map, ·)
        else .error .malformed

def readElements : Nat → Nat → Bool → List Char → Except Fault (List Char)
  | 0, _, _, _ => .error .truncated
  | fuel + 1, depth, isFirst, s => do
    let (more, s) ← nextElement isFirst s
    if more then
      let (_, s) ← readValue fuel depth s
      readElements fuel depth false s
    else return s

def readMembers : Nat → Nat → Bool → List Char → Except Fault (List Char)
  | 0, _, _, _ => .error .truncated
  | fuel + 1, depth, isFirst, s => do
    let (more, s) ← nextKey isFirst s
    if more then
      let (_, s) ← readString s
      let s ← punctuation ':' s
      let (_, s) ← readValue fuel depth s
      readMembers fuel depth false s
    else return s

end

mutual

def skipValue : Nat → List Char → Except Fault (List Char)
  | 0, _ => .error .truncated
  | fuel + 1, s =>
    match skipBlanks s with
    | [] => .error .truncated
    | c :: rest =>
      if c = 'n' then word "ull" rest
      else if c = 't' then word "rue" rest
      else if c = 'f' then word "alse" rest
      else if c = '-' then Number.skip rest
      else if c.isDigit then Number.skip (c :: rest)
      else if c = '"' then skipString rest
      else if c = '[' then skipElements fuel true rest
      else if c = '\x7b' then skipMembers fuel true rest
      else .error .malformed

def skipElements : Nat → Bool → List Char → Except Fault (List Char)
  | 0, _, _ => .error .truncated
  | fuel + 1, isFirst, s => do
    let (more, s) ← nextElement isFirst s
    if more then
      let s ← skipValue fuel s
      skipElements fuel false s
    else return s

def skipMembers : Nat → Bool → List Char → Except Fault (List Char)
  | 0, _, _ => .error .truncated
  | fuel + 1, isFirst, s => do
    let (more, s) ← nextKey isFirst s
    if more then
      let s ← skipString s
      let s ← punctuation ':' s
      let s ← skipValue fuel s
      skipMembers fuel false s
    else return s

end

/-- Enough fuel for any text: each call reads a character, or a call that does follows at once. -/
def fuelFor (s : List Char) : Nat :=
  2 * s.length + 2

def value (depth : Nat) : Reader Shape := fun s =>
  readValue (fuelFor s) depth s

def afterValue (s : List Char) : Except Fault (List Char) :=
  skipValue (fuelFor s) s

end LexicalScope.Json
