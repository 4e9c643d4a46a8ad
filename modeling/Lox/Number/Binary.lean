/-!
Doubles as exact numbers. Printing chooses among decimals by comparing them
with the value itself, so the first step takes the sixty-four bits apart into
a sign and a natural number times a power of two.
-/

namespace Lox.Number

/-- A finite magnitude, `coefficient * 2 ^ exponent`. -/
structure Binary where
  coefficient : Nat
  exponent : Int
  /-- The gap to the next double below is half the gap to the next one above,
  which happens at the powers of two. -/
  narrowBelow : Bool
deriving DecidableEq, Repr

/-- The magnitude of a finite double. A zero exponent field marks the
subnormals, which have no implicit leading bit. -/
def Binary.ofBits (bits : UInt64) : Binary :=
  let exponentField : Nat := (bits.toNat / Nat.pow 2 52) % Nat.pow 2 11
  let fraction : Nat := bits.toNat % Nat.pow 2 52
  if exponentField = 0 then
    ⟨fraction, -1074, false⟩
  else
    ⟨Nat.pow 2 52 + fraction, (exponentField : Int) - 1075, fraction = 0 && exponentField > 1⟩

/-- The kinds of double that are written in different ways. -/
inductive Shape where
  | notANumber
  | infinite (negative : Bool)
  | finite (negative : Bool) (magnitude : Binary)
deriving DecidableEq, Repr

def Shape.ofFloat (number : Float) : Shape :=
  let bits := number.toBits
  let negative := bits.toNat ≥ Nat.pow 2 63
  if number.isNaN then .notANumber
  else if number.isInf then .infinite negative
  else .finite negative (.ofBits bits)

/-- The magnitude as a natural number, if it has no fractional part. -/
def Binary.toNat? (magnitude : Binary) : Option Nat :=
  if 0 ≤ magnitude.exponent then
    some (magnitude.coefficient * Nat.pow 2 magnitude.exponent.toNat)
  else
    let unit := Nat.pow 2 (-magnitude.exponent).toNat
    if magnitude.coefficient % unit = 0 then some (magnitude.coefficient / unit) else none

end Lox.Number
