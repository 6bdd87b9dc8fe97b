import ElispBridge.Binary64.Basic
/-!
The text of a float: never in exponent notation and always with a point, so that no reader takes it
for an integer. Integral values are written out exactly. Others have the fewest decimal places whose
value still rounds to the number, and of two candidates the nearer one, a tie going up.
-/

namespace ElispBridge.Binary64

def integer? (mantissa : Nat) (exponent : Int) : Option Nat :=
  let (num, den) := ratio mantissa exponent
  if num % den = 0 then some (num / den) else none

/-- The numbers that round to a given one, as an interval `low / unit` to `high / unit`, whose ends
belong to it when `closed`. -/
structure Interval where
  low : Nat
  high : Nat
  unit : Nat
  closed : Bool

/-- The interval reaches half way to the two neighbours. The one below is nearer at a power of two,
and the ends round to an even mantissa. -/
def interval (mantissa : Nat) (exponent : Int) : Interval :=
  let below := if mantissa = twoTo 52 ∧ minExponent < exponent then 1 else 2
  { low := 4 * mantissa - below
    high := 4 * mantissa + 2
    unit := twoTo (2 - exponent).toNat
    closed := mantissa % 2 == 0 }

def Interval.contains (i : Interval) (digits places : Nat) : Bool :=
  let scaled := digits * i.unit
  let low := i.low * tenTo places
  let high := i.high * tenTo places
  if i.closed then low ≤ scaled && scaled ≤ high else low < scaled && scaled < high

/-- The neighbour of `num / den` on the grid of `places` decimal places that lies in the interval, the
nearer one if both do. -/
def candidate? (i : Interval) (num den places : Nat) : Option Nat :=
  let scaled := num * tenTo places
  let below := scaled / den
  let above := below + 1
  match i.contains below places, i.contains above places with
  | true, true => some (if 2 * (scaled % den) < den then below else above)
  | true, false => some below
  | false, true => some above
  | false, false => none

/-- The first grid with a candidate, tried from `places` on, `fuel` grids at most. -/
def searchPlaces (i : Interval) (num den : Nat) : (fuel : Nat) → (places : Nat) → Nat × Nat
  | 0, places => (num * tenTo places / den, places)
  | fuel + 1, places =>
    match candidate? i num den places with
    | some digits => (digits, places)
    | none => searchPlaces i num den fuel (places + 1)

/-- The digits of `mantissa * 2 ^ exponent`, with the number of them after the point. At as many
places as the exponent has the grid holds the value itself. -/
def shortest (mantissa : Nat) (exponent : Int) : Nat × Nat :=
  let (num, den) := ratio mantissa exponent
  searchPlaces (interval mantissa exponent) num den (-exponent).toNat 1

def fixedPoint (digits places : Nat) : List Char :=
  let fraction := Nat.toDigits 10 (digits % tenTo places)
  Nat.toDigits 10 (digits / tenTo places) ++
    '.' :: (List.replicate (places - fraction.length) '0' ++ fraction)

def magnitudeText (mantissa : Nat) (exponent : Int) : List Char :=
  match integer? mantissa exponent with
  | some n => Nat.toDigits 10 n ++ ['.', '0']
  | none =>
    let (digits, places) := shortest mantissa exponent
    fixedPoint digits places

def signText (negative : Bool) : List Char := if negative then ['-'] else []

/-- NaN and the infinities are written as the exponents that name them. -/
def text (x : Binary64) : List Char :=
  match x.value with
  | .nan => "0.0e+NaN".toList
  | .infinite negative => signText negative ++ "1.0e+INF".toList
  | .finite negative mantissa exponent => signText negative ++ magnitudeText mantissa exponent

end ElispBridge.Binary64
