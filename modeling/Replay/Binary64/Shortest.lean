import Replay.Binary64
/-!
The shortest decimal that reads back as a given number.

A positive number `m * 2 ^ q` owns an interval of reals: those nearer to it than to its neighbours,
the ends included when `m` is even.  On the grid of multiples of `10 ^ e` only the two neighbours of
the number need a look, so the grids are tried from one digit upward and the first that has a point
in the interval decides.  Of two points on that grid the nearer is taken, and the upper one when
they are equally near.
-/

namespace Replay
namespace Binary64

/-- The number `digits * 10 ^ exponent`. -/
structure Decimal where
  digits : Nat
  exponent : Int
deriving DecidableEq

/-- How many decimal digits `n` has; zero has none. -/
def digitCount (n : Nat) : Nat :=
  if n = 0 then 0 else (Nat.toDigits 10 n).length

/-- A positive number with its interval, all four as multiples of `unit = num / den`. -/
structure Interval where
  low : Nat
  value : Nat
  high : Nat
  closed : Bool
  num : Nat
  den : Nat

namespace Interval

/-- The interval of `m * 2 ^ q` in quarters of its unit.  Below a power of two the neighbour is at
half the distance, except at the least exponent. -/
def ofMantissa (m : Nat) (q : Int) : Interval where
  low := if m = 1 <<< 52 ∧ leastExponent < q then 4 * m - 1 else 4 * m - 2
  value := 4 * m
  high := 4 * m + 2
  closed := m % 2 = 0
  num := 1 <<< (q - 2).toNat
  den := 1 <<< (2 - q).toNat

/-- The least `k` with `value < 10 ^ k`. -/
def magnitude (i : Interval) : Int :=
  let num := i.value * i.num
  if i.den ≤ num then digitCount (num / i.den)
  else 1 - (digitCount ((i.den - 1) / num) : Int)

/-- The point of the grid of `10 ^ e` that stands for the number, if one lies in the interval. -/
def pick (i : Interval) (e : Int) : Option Nat :=
  let scale := i.num * Nat.pow 10 (-e).toNat
  let den := i.den * Nat.pow 10 e.toNat
  let below := i.value * scale / den
  let above := below + 1
  let inside (d : Nat) : Bool :=
    if i.closed then i.low * scale ≤ d * den ∧ d * den ≤ i.high * scale
    else i.low * scale < d * den ∧ d * den < i.high * scale
  match inside below, inside above with
  | true, true => if 2 * i.value * scale < (below + above) * den then some below else some above
  | true, false => some below
  | false, true => some above
  | false, false => none

/-- Seventeen digits tell any two numbers apart, so the last alternative is never needed. -/
def shortest (i : Interval) : Decimal :=
  let k := i.magnitude
  let found := (List.range 17).findSome? fun n =>
    let e := k - (n + 1 : Nat)
    (i.pick e).map fun d => (⟨d, e⟩ : Decimal)
  found.getD ⟨0, 0⟩

end Interval

/-- Rounding up to a power of ten leaves one zero behind the digit. -/
def Decimal.trim (d : Decimal) : Decimal :=
  if d.digits % 10 = 0 then ⟨d.digits / 10, d.exponent + 1⟩ else d

def shortest (m : Nat) (q : Int) : Decimal :=
  if m = 0 then ⟨0, 0⟩ else (Interval.ofMantissa m q).shortest.trim

end Binary64
end Replay
