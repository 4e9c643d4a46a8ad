import Lox.Number.Shortest

/-!
How numbers are written. Program output, token listings and the prefix form
of expressions use full positional notation and differ only in a few
decisions, which are the fields of a `Style`. The structured token listing has
a notation of its own with exponents.
-/

namespace Lox.Number

/-- The number in full, without an exponent. -/
def Decimal.positional (number : Decimal) : String :=
  let digits := toString number.digits
  if 0 ≤ number.exponent then
    digits ++ "".pushn '0' number.exponent.toNat
  else
    let places := (-number.exponent).toNat
    let padded := ("".pushn '0' (places + 1 - digits.length) ++ digits).toList
    let whole := padded.length - places
    String.ofList (padded.take whole) ++ "." ++ String.ofList (padded.drop whole)

/-- The choices in which the positional notations differ. -/
structure Style where
  notANumber : String
  infinity : String
  /-- Whole numbers below this bound, or all of them, are written out exactly;
  the others show their shortest digits padded with zeros. -/
  exactBelow : Option Nat
  /-- What follows a whole number that is written out exactly. -/
  wholeTail : String

def Style.magnitude (style : Style) (magnitude : Binary) : String :=
  let shortest := (magnitude.shortest .upward).positional
  match magnitude.toNat? with
  | some whole =>
      if style.exactBelow.all (whole < ·) then toString whole ++ style.wholeTail else shortest
  | none => shortest

def Style.render (style : Style) (number : Float) : String :=
  let signed (negative : Bool) (text : String) := if negative then "-" ++ text else text
  match Shape.ofFloat number with
  | .notANumber => style.notANumber
  | .infinite negative => signed negative style.infinity
  | .finite negative magnitude => signed negative (style.magnitude magnitude)

/-- What `print` shows: whole numbers exactly and without a point. -/
def printed : Style := ⟨"NaN", "Infinity", none, ""⟩

/-- The literal column of a token listing: whole numbers that fit a signed
machine word keep a trailing `.0`, larger ones do not. -/
def listed : Style := ⟨"NaN", "inf", some (Nat.pow 2 63), ".0"⟩

/-- Number literals in the prefix form of an expression. -/
def literal : Style := ⟨"NaN", "inf", none, ".0"⟩

/-- Digits with a point after the first, the notation of very large and very
small numbers in structured listings. -/
def Decimal.exponential (number : Decimal) : String :=
  let digits := (toString number.digits).toList
  let fraction := digits.drop 1
  let power := number.exponent + fraction.length
  String.ofList (digits.take 1)
    ++ (if fraction.isEmpty then "" else "." ++ String.ofList fraction)
    ++ (if power < 0 then "e-" else "e+") ++ toString power.natAbs

/-- The number with at least one place after the point, between one hundred
thousandth and ten to the sixteenth; outside that range with an exponent. -/
def Decimal.structured (number : Decimal) : String :=
  let point := number.exponent + (toString number.digits).length
  if number.digits = 0 then "0.0"
  else if point ≤ -5 || 16 < point then number.exponential
  else if 0 ≤ number.exponent then number.positional ++ ".0"
  else number.positional

/-- A number in a structured listing, where a number that is not finite has no
notation and becomes `null`. -/
def structured (number : Float) : String :=
  match Shape.ofFloat number with
  | .finite negative magnitude =>
      (if negative then "-" else "") ++ (magnitude.shortest .toEven).structured
  | _ => "null"

end Lox.Number
