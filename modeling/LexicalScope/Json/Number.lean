import LexicalScope.Json.Quoted
import LexicalScope.Number.Decimal

/-!
Numbers of JSON. A number without point and exponent that fits 64 bits is an integer. Any other
one is a double: as many leading digits as fit 64 bits, multiplied or divided by a power of ten,
each step rounded. A number too large for a double is malformed. A number that is only skipped
is checked against the grammar alone, and a text that ends inside it is malformed as well.
-/
namespace LexicalScope.Json

inductive Number where
  | integer (n : Int)
  | double (x : Double)
deriving DecidableEq

namespace Number

def limit : Nat := Nat.pow 2 64

def digitValue (c : Char) : Nat :=
  c.toNat - '0'.toNat

/-- A significand under construction, and how many whole digits it had no room for. -/
structure Digits where
  significand : Nat := 0
  dropped : Nat := 0

def Digits.push (d : Digits) (c : Char) : Digits :=
  let next := 10 * d.significand + digitValue c
  if d.dropped = 0 && next < limit then { d with significand := next }
  else { d with dropped := d.dropped + 1 }

/-- A significand with fraction digits behind it, as far as there is room, and their number. -/
def withFraction (significand : Nat) : List Char → Nat × Nat
  | [] => (significand, 0)
  | c :: rest =>
    let next := 10 * significand + digitValue c
    if next < limit then
      let (s, n) := withFraction next rest
      (s, n + 1)
    else (significand, 0)

def powerOfTen (n : Nat) : Double :=
  Double.nearest false (Nat.pow 10 n) 1

def multiply (x y : Double) : Double :=
  match x, y with
  | .finite _ m e, .finite _ m' e' =>
    let (a, b) := Double.magnitude m e
    let (a', b') := Double.magnitude m' e'
    Double.nearest false (a * a') (b * b')
  | _, _ => .infinite false

def divide (x y : Double) : Double :=
  match x, y with
  | .finite _ m e, .finite _ m' e' =>
    let (a, b) := Double.magnitude m e
    let (a', b') := Double.magnitude m' e'
    Double.nearest false (a * b') (b * a')
  | _, _ => .infinite false

/-- The product `x * 10 ^ exponent` for a magnitude below `10 ^ 20`. Dividing that by `10 ^ 308`
three times leaves nothing, so smaller exponents make no difference. -/
def scale (x : Double) (exponent : Int) : Double :=
  if 308 < exponent then if x = .finite false 0 (-1074) then x else .infinite false
  else if 0 ≤ exponent then multiply x (powerOfTen exponent.toNat)
  else
    let small := (max exponent (-924)).natAbs
    let x := if 308 < small then divide x (powerOfTen 308) else x
    let x := if 616 < small then divide x (powerOfTen 308) else x
    divide x (powerOfTen (small - 308 * ((small - 1) / 308)))

def withSign (negative : Bool) : Double → Double
  | .finite _ m e => .finite negative m e
  | x => x

def ofParts (negative : Bool) (significand : Nat) (exponent : Int) : Except Fault Number :=
  let x := scale (Double.nearest false significand 1) exponent
  if x.isInfinite then .error .malformed else .ok (.double (withSign negative x))

/-- An integer, unless it is a negative zero or too small. -/
def ofInteger (negative : Bool) (significand : Nat) : Number :=
  if !negative then .integer significand
  else if significand = 0 || Nat.pow 2 63 < significand then
    .double (withSign true (Double.nearest false significand 1))
  else .integer (-(significand : Int))

def someDigits (s : List Char) : Except Fault (List Char × List Char) :=
  match s with
  | [] => .error .truncated
  | c :: _ => if c.isDigit then .ok (s.span Char.isDigit) else .error .malformed

/-- The digits before the point, of which only a single one may be zero. -/
def wholeDigits (s : List Char) : Except Fault (List Char × List Char) := do
  let (digits, rest) ← someDigits s
  if digits.head? = some '0' && 1 < digits.length then throw .malformed
  return (digits, rest)

def isExponentMark (c : Char) : Bool :=
  c = 'e' || c = 'E'

def exponentDigits (s : List Char) : Except Fault (Bool × List Char × List Char) := do
  let (negative, s) :=
    match s with
    | [] => (false, [])
    | c :: rest => if c = '-' then (true, rest) else if c = '+' then (false, rest) else (false, s)
  let (digits, rest) ← someDigits s
  return (negative, digits, rest)

def finish (negative : Bool) (significand : Nat) (exponent : Int) (s : List Char) :
    Except Fault (Number × List Char) := do
  match s with
  | c :: rest =>
    if isExponentMark c then
      let (below, digits, rest) ← exponentDigits rest
      let shift : Nat := Double.natOfDigits digits
      if Nat.pow 2 31 ≤ shift then
        if significand ≠ 0 && !below then throw .malformed
        else return (.double (.finite negative 0 (-1074)), rest)
      else
        let x ← ofParts negative significand (if below then exponent - shift else exponent + shift)
        return (x, rest)
    else
      let x ← ofParts negative significand exponent
      return (x, s)
  | [] =>
    let x ← ofParts negative significand exponent
    return (x, s)

/-- Reads a number, after its sign. -/
def read (negative : Bool) (s : List Char) : Except Fault (Number × List Char) := do
  let (whole, rest) ← wholeDigits s
  let d := whole.foldl Digits.push {}
  match rest with
  | c :: after =>
    if c = '.' then
      let (fraction, rest) ← someDigits after
      let (significand, places) := withFraction d.significand fraction
      finish negative significand (d.dropped - places) rest
    else if isExponentMark c || d.dropped ≠ 0 then finish negative d.significand d.dropped rest
    else return (ofInteger negative d.significand, rest)
  | [] =>
    if d.dropped ≠ 0 then finish negative d.significand d.dropped rest
    else return (ofInteger negative d.significand, rest)

def skip (s : List Char) : Except Fault (List Char) :=
  let rest? : Except Fault (List Char) := do
    let (_, rest) ← wholeDigits s
    let rest ←
      match rest with
      | '.' :: after => (·.2) <$> someDigits after
      | _ => pure rest
    match rest with
    | c :: after => if isExponentMark c then (·.2.2) <$> exponentDigits after else return rest
    | [] => return rest
  rest?.mapError fun _ => .malformed

end Number

end LexicalScope.Json
