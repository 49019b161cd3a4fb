/-!
Double-precision numbers as exact values: an integer times a power of two, with 53 significant
bits, or an infinity, or not a number. Arithmetic rounds the exact quotient to the nearest
double and a tie to the even neighbour.
-/
namespace LexicalScope

/-- A finite value is `significand * 2 ^ exponent`. Its exponent is the least one from `-1074`
on that leaves fewer than 54 bits, so equal values have equal parts; only the two zeros differ. -/
inductive Double where
  | finite (negative : Bool) (significand : Nat) (exponent : Int)
  | infinite (negative : Bool)
  | nan
deriving DecidableEq

namespace Double

/-- The integer nearest to `num / den`, the even one if two are. -/
def roundQuotient (num den : Nat) : Nat :=
  let q := num / den
  let twice := 2 * (num % den)
  if den < twice || (den == twice && q % 2 == 1) then q + 1 else q

def scaleDown (num den : Nat) (e : Int) : Nat × Nat :=
  if 0 ≤ e then (num, den * Nat.pow 2 e.toNat) else (num * Nat.pow 2 (-e).toNat, den)

def nearest (negative : Bool) (num den : Nat) : Double :=
  if num = 0 then finite negative 0 (-1074)
  else
    let e : Int := num.log2 - den.log2 - 52
    let (n, d) := scaleDown num den e
    let e := max (if n < d * Nat.pow 2 52 then e - 1 else e) (-1074)
    let (n, d) := scaleDown num den e
    let m := roundQuotient n d
    let (m, e) := if m = Nat.pow 2 53 then (Nat.pow 2 52, e + 1) else (m, e)
    if 971 < e then infinite negative else finite negative m e

def magnitude (significand : Nat) (exponent : Int) : Nat × Nat :=
  if 0 ≤ exponent then (significand * Nat.pow 2 exponent.toNat, 1)
  else (significand, Nat.pow 2 (-exponent).toNat)

def isInfinite : Double → Bool
  | infinite _ => true
  | _ => false

/-- The double nearest to `digits * 10 ^ exponent`. Magnitudes beyond the range of doubles are
decided by their number of digits, so no power of ten is larger than that range needs. -/
def ofDecimal (negative : Bool) (digits : Nat) (exponent : Int) : Double :=
  let order : Int := (Nat.toDigits 10 digits).length + exponent
  if digits = 0 || order < -330 then finite negative 0 (-1074)
  else if 330 < order then infinite negative
  else if 0 ≤ exponent then nearest negative (digits * Nat.pow 10 exponent.toNat) 1
  else nearest negative digits (Nat.pow 10 (-exponent).toNat)

end Double

end LexicalScope
