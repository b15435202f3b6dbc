import StageArchive.Binary.Format
/-!
# Shortest decimals

The decimal of a value is the one with the fewest digits that rounds back to it, and among those the
nearest. The multiples of a power of ten form a grid; the coarsest grid with a point in the interval
of numbers that round to the value is the one to take, and one of the value's two neighbours on that
grid is the point to take.
-/

namespace StageArchive.Binary

/-- The numbers that round to a positive value, in quarters of the value's last place. -/
structure RoundingInterval where
  value : Nat
  low : Nat
  high : Nat
  /-- Whether the ends round to the value too. -/
  closed : Bool
  deriving DecidableEq, Repr

/-- The interval of `mantissa * 2 ^ exponent`. Below a power of two the next value is only half as
far away. -/
def Format.interval (format : Format) (mantissa : Nat) (exponent : Int) : RoundingInterval where
  value := 4 * mantissa
  low :=
    if mantissa = 2 ^ format.fractionBits ∧ format.leastExponent < exponent then 4 * mantissa - 1
    else 4 * mantissa - 2
  high := 4 * mantissa + 2
  closed := mantissa % 2 == 0

/-- Whether a multiple of a unit lies in an interval whose quarters are multiples of another. -/
def RoundingInterval.holds (interval : RoundingInterval) (unit quarter multiple : Nat) : Bool :=
  if interval.closed then
    interval.low * quarter ≤ multiple * unit && multiple * unit ≤ interval.high * quarter
  else interval.low * quarter < multiple * unit && multiple * unit < interval.high * quarter

/-- The neighbour of the value on a grid that lies in the interval; the nearer of two, and the even
one of two that are equally near. -/
def RoundingInterval.neighbour? (interval : RoundingInterval) (unit quarter : Nat) : Option Nat :=
  let below := interval.value * quarter / unit
  let twiceRest := 2 * (interval.value * quarter % unit)
  let belowHolds := 0 < below && interval.holds unit quarter below
  let aboveHolds := interval.holds unit quarter (below + 1)
  if belowHolds && aboveHolds then
    if twiceRest < unit || (twiceRest == unit && below % 2 == 0) then some below
    else some (below + 1)
  else if belowHolds then some below
  else if aboveHolds then some (below + 1)
  else none

/-- The neighbour of a positive value on the grid of a power of ten. -/
def Format.onGrid? (format : Format) (mantissa : Nat) (exponent power : Int) : Option Nat :=
  let last := exponent - 2
  let unit := 10 ^ power.toNat * 2 ^ (-last).toNat
  let quarter := 2 ^ last.toNat * 10 ^ (-power).toNat
  (format.interval mantissa exponent).neighbour? unit quarter

/-- The powers of ten to try, from one above every value down to one that divides every value. -/
def Format.powers (format : Format) : List Int :=
  let top : Int := 2 ^ (format.exponentBits - 1)
  (List.range (top - format.leastExponent + 1).toNat).map fun (step : Nat) => top - (step : Int)

/-- The shortest decimal of a positive value: its digits as a number, and a power of ten. -/
def Format.shortest (format : Format) (mantissa : Nat) (exponent : Int) : Nat × Int :=
  (format.powers.findSome? fun power =>
    (format.onGrid? mantissa exponent power).map fun digits => (digits, power)).getD (0, 0)

end StageArchive.Binary
