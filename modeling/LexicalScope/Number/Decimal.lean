import LexicalScope.Number.Double

/-!
Decimal notation of doubles. A number is written with the fewest digits that read back as the
same number, and of two such candidates with the nearer one. Two styles are in use. Literals are
positional at any size, and of two equally near candidates they take the larger. Numbers in
messages have an exponent when they are very large or very small, and take the even candidate.
-/
namespace LexicalScope

/-- The value `0.d₁d₂… * 10 ^ point`, with neither leading nor trailing zeros. -/
structure Decimal where
  digits : List Char
  point : Int

namespace Decimal

def zero : Decimal := ⟨[], 1⟩

def ofScaled (coefficient : Nat) (grid : Int) : Decimal :=
  let digits := Nat.toDigits 10 coefficient
  ⟨(digits.reverse.dropWhile (· = '0')).reverse, digits.length + grid⟩

def split (d : Decimal) : List Char × List Char :=
  if d.point ≤ 0 then (['0'], List.replicate (-d.point).toNat '0' ++ d.digits)
  else
    let whole := d.digits.take d.point.toNat
    (whole ++ List.replicate (d.point.toNat - whole.length) '0', d.digits.drop d.point.toNat)

/-- Positional notation; a whole number has no point. -/
def positional (d : Decimal) : String :=
  let (whole, fraction) := d.split
  String.ofList (if fraction.isEmpty then whole else whole ++ '.' :: fraction)

/-- Positional notation from `0.00001` up to sixteen whole places, a whole number with `.0`;
outside of that one digit before the point and a signed exponent. -/
def compact (d : Decimal) : String :=
  if -5 < d.point && d.point ≤ 16 then
    let (whole, fraction) := d.split
    String.ofList (whole ++ '.' :: if fraction.isEmpty then ['0'] else fraction)
  else
    let fraction := d.digits.drop 1
    let mantissa := d.digits.take 1 ++ if fraction.isEmpty then [] else '.' :: fraction
    let exponent := d.point - 1
    String.ofList (mantissa ++ 'e' :: (if exponent < 0 then '-' else '+') ::
      Nat.toDigits 10 exponent.natAbs)

end Decimal

/-- Which of two equally near candidates is taken. -/
inductive Tie where
  | toLarger
  | toEven
deriving DecidableEq

def Tie.resolve (low : Nat) : Tie → Nat
  | toLarger => low + 1
  | toEven => low + low % 2

structure DecimalStyle where
  tie : Tie
  layout : Decimal → String

namespace DecimalStyle

def forLiterals : DecimalStyle := ⟨.toLarger, Decimal.positional⟩

def forMessages : DecimalStyle := ⟨.toEven, Decimal.compact⟩

end DecimalStyle

namespace Double

/-- How many decimal places stand before the point: the least `k` with `num / den < 10 ^ k`. -/
def decimalOrder (num den : Nat) : Int :=
  if den ≤ num then (Nat.toDigits 10 (num / den)).length
  else
    match (List.range 400).find? fun j => den ≤ num * Nat.pow 10 j with
    | some j => 1 - (j : Int)
    | none => 0

/-- The multiple of `10 ^ grid` next to a finite value that reads back as this value. -/
def onGrid? (tie : Tie) (significand : Nat) (exponent grid : Int) : Option Nat :=
  let (num, den) := magnitude significand exponent
  let (n, d) :=
    if 0 ≤ grid then (num, den * Nat.pow 10 grid.toNat)
    else (num * Nat.pow 10 (-grid).toNat, den)
  let low := n / d
  let readsBack := fun c => decide (ofDecimal false c grid = finite false significand exponent)
  match readsBack low, readsBack (low + 1) with
  | true, true =>
    match compare (2 * (n % d)) d with
    | .lt => some low
    | .eq => some (tie.resolve low)
    | .gt => some (low + 1)
  | true, false => some low
  | false, true => some (low + 1)
  | false, false => none

/-- The shortest decimal that reads back. Seventeen digits always do. -/
def shortest (tie : Tie) (significand : Nat) (exponent : Int) : Decimal :=
  if significand = 0 then .zero
  else
    let (num, den) := magnitude significand exponent
    let order := decimalOrder num den
    let found := (List.range 17).findSome? fun (n : Nat) =>
      let grid := order - (n + 1)
      (onGrid? tie significand exponent grid).map fun c => Decimal.ofScaled c grid
    found.getD .zero

def textWith (style : DecimalStyle) : Double → String
  | finite negative significand exponent =>
    (if negative then "-" else "") ++ style.layout (shortest style.tie significand exponent)
  | infinite negative => if negative then "-inf" else "inf"
  | nan => "NaN"

def text (x : Double) : String :=
  x.textWith .forLiterals

def natOfDigits (digits : List Char) : Nat :=
  digits.foldl (fun n c => 10 * n + (c.toNat - '0'.toNat)) 0

def unsignedOfChars? (negative : Bool) (cs : List Char) : Option Double :=
  let lower := cs.map Char.toLower
  if lower = "inf".toList || lower = "infinity".toList then some (infinite negative)
  else if lower = "nan".toList then some nan
  else
    let (whole, rest) := cs.span Char.isDigit
    let (fraction, rest) :=
      match rest with
      | '.' :: rest => rest.span Char.isDigit
      | _ => ([], rest)
    let value := fun e => some (ofDecimal negative (natOfDigits (whole ++ fraction))
      (e - fraction.length))
    if whole.isEmpty && fraction.isEmpty then none
    else
      match rest with
      | [] => value 0
      | e :: rest =>
        if e = 'e' || e = 'E' then
          let (sign, digits) :=
            match rest with
            | '-' :: rest => (-1, rest)
            | '+' :: rest => (1, rest)
            | _ => (1, rest)
          if digits.isEmpty || digits.any (!·.isDigit) then none
          else value (sign * (natOfDigits digits : Int))
        else none

/-- Reads a decimal with optional sign, point and exponent, or a spelled infinity or NaN. -/
def ofText? (s : String) : Option Double :=
  match s.toList with
  | '-' :: cs => unsignedOfChars? true cs
  | '+' :: cs => unsignedOfChars? false cs
  | cs => unsignedOfChars? false cs

end Double

end LexicalScope
