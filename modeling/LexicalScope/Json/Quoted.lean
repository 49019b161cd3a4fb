/-!
Quoted strings of JSON. `quote` writes them with the shortest escapes. The readers take the text
after the opening quote. A string that is only skipped may hold surrogate escapes in any order;
one that is read has to pair them.
-/
namespace LexicalScope.Json

/-- Where reading JSON stops: at a character that cannot stand there, or at an early end. -/
inductive Fault where
  | malformed
  | truncated
deriving DecidableEq

def hexDigit (n : Nat) : Char :=
  Char.ofNat (if n < 10 then '0'.toNat + n else 'a'.toNat + (n - 10))

def controlEscape (c : Char) : List Char :=
  ['\\', 'u', '0', '0', hexDigit (c.toNat / 16), hexDigit (c.toNat % 16)]

def quoteChar (c : Char) : List Char :=
  if c = '"' then ['\\', '"']
  else if c = '\\' then ['\\', '\\']
  else if c = '\x08' then ['\\', 'b']
  else if c = '\x0c' then ['\\', 'f']
  else if c = '\n' then ['\\', 'n']
  else if c = '\r' then ['\\', 'r']
  else if c = '\t' then ['\\', 't']
  else if c.toNat < 0x20 then controlEscape c
  else [c]

def quote (s : String) : List Char :=
  '"' :: s.toList.flatMap quoteChar ++ ['"']

def simpleEscape? (c : Char) : Option Char :=
  if c = '"' || c = '\\' || c = '/' then some c
  else if c = 'b' then some '\x08'
  else if c = 'f' then some '\x0c'
  else if c = 'n' then some '\n'
  else if c = 'r' then some '\r'
  else if c = 't' then some '\t'
  else none

def hexValue? (c : Char) : Option Nat :=
  if '0' ≤ c ∧ c ≤ '9' then some (c.toNat - '0'.toNat)
  else if 'a' ≤ c ∧ c ≤ 'f' then some (c.toNat - 'a'.toNat + 10)
  else if 'A' ≤ c ∧ c ≤ 'F' then some (c.toNat - 'A'.toNat + 10)
  else none

def utf8Length (s : List Char) : Nat :=
  s.foldl (fun n c => n + c.utf8Size) 0

/-- The value of four hexadecimal digits. The text ends early if fewer than four bytes are
left. -/
def hexUnit (s : List Char) : Except Fault (Nat × List Char) :=
  let value := (s.take 4).foldl
    (fun n c => n.bind fun n => (hexValue? c).map (16 * n + ·)) (some 0)
  match value with
  | some n => if s.length < 4 then .error .truncated else .ok (n, s.drop 4)
  | none => .error (if utf8Length s < 4 then .truncated else .malformed)

def isLeading (n : Nat) : Bool :=
  0xD800 ≤ n && n ≤ 0xDBFF

def isTrailing (n : Nat) : Bool :=
  0xDC00 ≤ n && n ≤ 0xDFFF

/-- The trailing surrogate that has to follow a leading one. -/
def trailingUnit (s : List Char) : Except Fault (Nat × List Char) :=
  if ['\\', 'u'].isPrefixOf s then
    match hexUnit (s.drop 2) with
    | .error e => .error e
    | .ok (n, rest) => if isTrailing n then .ok (n, rest) else .error .malformed
  else if s.isPrefixOf ['\\', 'u'] then .error .truncated
  else .error .malformed

def unicodeEscape (s : List Char) : Except Fault (Char × List Char) :=
  match hexUnit s with
  | .error e => .error e
  | .ok (n, rest) =>
    if isTrailing n then .error .malformed
    else if isLeading n then
      match trailingUnit rest with
      | .error e => .error e
      | .ok (m, rest) => .ok (Char.ofNat (0x10000 + (n - 0xD800) * 0x400 + (m - 0xDC00)), rest)
    else .ok (Char.ofNat n, rest)

def escape : List Char → Except Fault (Char × List Char)
  | [] => .error .truncated
  | c :: rest =>
    match simpleEscape? c with
    | some x => .ok (x, rest)
    | none => if c = 'u' then unicodeEscape rest else .error .malformed

def skipEscape : List Char → Except Fault (List Char)
  | [] => .error .truncated
  | c :: rest =>
    if (simpleEscape? c).isSome then .ok rest
    else if c = 'u' then (hexUnit rest).map (·.2)
    else .error .malformed

theorem length_of_hexUnit {s rest : List Char} {n : Nat} (h : hexUnit s = .ok (n, rest)) :
    rest.length ≤ s.length := by
  unfold hexUnit at h
  grind

theorem length_of_trailingUnit {s rest : List Char} {n : Nat}
    (h : trailingUnit s = .ok (n, rest)) : rest.length ≤ s.length := by
  unfold trailingUnit at h
  cases hu : hexUnit (s.drop 2) with
  | error => grind
  | ok p =>
    have : p.2.length ≤ _ := length_of_hexUnit hu
    grind

theorem length_of_unicodeEscape {s rest : List Char} {c : Char}
    (h : unicodeEscape s = .ok (c, rest)) : rest.length ≤ s.length := by
  unfold unicodeEscape at h
  cases hu : hexUnit s with
  | error => grind
  | ok p =>
    have : p.2.length ≤ _ := length_of_hexUnit hu
    cases ht : trailingUnit p.2 with
    | error => grind
    | ok q =>
      have : q.2.length ≤ _ := length_of_trailingUnit ht
      grind

theorem length_of_escape {s rest : List Char} {c : Char} (h : escape s = .ok (c, rest)) :
    rest.length < s.length := by
  unfold escape at h
  split at h
  · cases h
  · next d tail =>
    cases hu : unicodeEscape tail with
    | error => grind
    | ok p =>
      have : p.2.length ≤ _ := length_of_unicodeEscape hu
      grind

theorem length_of_skipEscape {s rest : List Char} (h : skipEscape s = .ok rest) :
    rest.length < s.length := by
  unfold skipEscape at h
  split at h
  · cases h
  · next d tail =>
    cases hu : hexUnit tail with
    | error => grind [Except.map]
    | ok p =>
      have : p.2.length ≤ _ := length_of_hexUnit hu
      grind [Except.map]

def unquote (s : List Char) : Except Fault (List Char × List Char) :=
  match s with
  | [] => .error .truncated
  | c :: rest =>
    if c = '"' then .ok ([], rest)
    else if c = '\\' then
      match h : escape rest with
      | .error e => .error e
      | .ok (x, after) =>
        have := length_of_escape h
        (unquote after).map fun p => (x :: p.1, p.2)
    else if c.toNat < 0x20 then .error .malformed
    else (unquote rest).map fun p => (c :: p.1, p.2)
termination_by s.length

def skipString (s : List Char) : Except Fault (List Char) :=
  match s with
  | [] => .error .truncated
  | c :: rest =>
    if c = '"' then .ok rest
    else if c = '\\' then
      match h : skipEscape rest with
      | .error e => .error e
      | .ok after =>
        have := length_of_skipEscape h
        skipString after
    else if c.toNat < 0x20 then .error .malformed
    else skipString rest
termination_by s.length

end LexicalScope.Json
