import Lox.Number.Binary

/-!
The fewest decimal digits that read back as the same double. The decimals
that read back fill an interval around the value. Counted in a small enough
power of ten, both ends of that interval and the value are natural numbers, so
the search over coarser and finer grids is exact arithmetic throughout.
-/

namespace Lox.Number

/-- The number `digits * 10 ^ exponent`. -/
structure Decimal where
  digits : Nat
  exponent : Int
deriving DecidableEq, Repr

/-- What to do when two shortest decimals are equally near. -/
inductive Tie where
  | upward
  | toEven
deriving DecidableEq, Repr

/-- The decimals that round to one double, in units of `10 ^ unit`. -/
structure Interval where
  low : Nat
  value : Nat
  high : Nat
  /-- Both ends belong to the interval, as halfway cases go to the even
  coefficient. -/
  closed : Bool
  unit : Int
deriving Repr

/-- Quarters of the last binary place name both midpoints; a negative power of
two becomes a natural number once the unit absorbs the same power of ten. -/
def Binary.interval (magnitude : Binary) : Interval :=
  let quarter := magnitude.exponent - 2
  let scale := if quarter < 0 then Nat.pow 5 (-quarter).toNat else Nat.pow 2 quarter.toNat
  let below := if magnitude.narrowBelow then 1 else 2
  { low := (4 * magnitude.coefficient - below) * scale
    value := 4 * magnitude.coefficient * scale
    high := (4 * magnitude.coefficient + 2) * scale
    closed := magnitude.coefficient % 2 = 0
    unit := min quarter 0 }

def Interval.contains (interval : Interval) (candidate : Nat) : Bool :=
  if interval.closed then interval.low ≤ candidate && candidate ≤ interval.high
  else interval.low < candidate && candidate < interval.high

/-- The multiplier of the grid point nearest to the value, if one of the two
points around the value reads back. -/
def Interval.onGrid? (interval : Interval) (tie : Tie) (grid : Nat) : Option Nat :=
  let floor := interval.value / grid
  let below := floor * grid
  let above := below + grid
  match interval.contains below, interval.contains above with
  | false, false => none
  | true, false => some floor
  | false, true => some (floor + 1)
  | true, true =>
      match compare (2 * interval.value) (below + above) with
      | .lt => some floor
      | .gt => some (floor + 1)
      | .eq =>
          match tie with
          | .upward => some (floor + 1)
          | .toEven => some (if floor % 2 = 0 then floor else floor + 1)

/-- The coarsest grid of at most `10 ^ places` that has a point in the
interval; the grid of single units holds the value itself. -/
def Interval.shortestFrom (interval : Interval) (tie : Tie) : Nat → Decimal
  | 0 => ⟨interval.value, interval.unit⟩
  | places + 1 =>
      match interval.onGrid? tie (10 ^ (places + 1)) with
      | some digits => ⟨digits, interval.unit + (places + 1 : Nat)⟩
      | none => interval.shortestFrom tie places

/-- The shortest decimal that reads back as this double. A power of ten with
more than a third as many places as the value has bits exceeds the value. -/
def Binary.shortest (magnitude : Binary) (tie : Tie) : Decimal :=
  if magnitude.coefficient = 0 then ⟨0, 0⟩
  else
    let interval := magnitude.interval
    interval.shortestFrom tie (interval.value.log2 / 3 + 1)

end Lox.Number
