/-!
Reals as sign, mantissa and exponent.

The operators of the language act on IEEE double precision numbers.  What the processor's operations
do not give directly, printing and the remainder, is computed here on exact integers: `parts`
takes a number apart and `ofDyadic` puts an exactly representable one together.
-/

namespace Replay
namespace Binary64

/-- The number `mantissa * 2 ^ exponent`, negated if `negative`.  Zero keeps its sign. -/
structure Dyadic where
  negative : Bool
  mantissa : Nat
  exponent : Int
deriving DecidableEq

inductive Parts where
  | finite (d : Dyadic)
  | infinite (negative : Bool)
  | notANumber
deriving DecidableEq

/-- The exponent of the least positive number, which all subnormal numbers share. -/
def leastExponent : Int := -1074

def parts (x : Float) : Parts :=
  let bits := x.toBits.toNat
  let negative := bits.testBit 63
  let biased := bits / (1 <<< 52) % (1 <<< 11)
  let fraction := bits % (1 <<< 52)
  if biased = 2047 then
    if fraction = 0 then .infinite negative else .notANumber
  else if biased = 0 then .finite ⟨negative, fraction, leastExponent⟩
  else .finite ⟨negative, fraction + (1 <<< 52), leastExponent + (biased - 1 : Nat)⟩

def ofFields (negative : Bool) (biased fraction : Nat) : Float :=
  Float.ofBits (UInt64.ofNat ((if negative then 1 <<< 63 else 0) + biased * (1 <<< 52) + fraction))

def notANumber : Float := ofFields false 2047 (1 <<< 51)

/-- The number with the given parts, if it is representable without rounding: the mantissa is
scaled to 53 bits, or to the least exponent where that is reached first. -/
def ofDyadic (d : Dyadic) : Float :=
  if d.mantissa = 0 then ofFields d.negative 0 0
  else
    let exponent := max leastExponent (d.exponent + d.mantissa.log2 - 52)
    let mantissa :=
      if d.exponent ≤ exponent then d.mantissa / (1 <<< (exponent - d.exponent).toNat)
      else d.mantissa * (1 <<< (d.exponent - exponent).toNat)
    if mantissa < 1 <<< 52 then ofFields d.negative 0 mantissa
    else ofFields d.negative (exponent - leastExponent + 1).toNat (mantissa - (1 <<< 52))

/-- The remainder of a division that truncates toward zero.  It has the sign of `x`, and it is
exact: both operands are multiples of the smaller of their two units, and so is the remainder. -/
def remainder (x y : Float) : Float :=
  match parts x, parts y with
  | .finite a, .finite b =>
    if b.mantissa = 0 then notANumber
    else
      let unit := min a.exponent b.exponent
      let left := a.mantissa * (1 <<< (a.exponent - unit).toNat)
      let right := b.mantissa * (1 <<< (b.exponent - unit).toNat)
      ofDyadic ⟨a.negative, left % right, unit⟩
  | .finite _, .infinite _ => x
  | _, _ => notANumber

/-- The nearest number to an integer, ties going to the even mantissa. -/
def ofInt (n : Int) : Float :=
  let magnitude := Float.ofScientific n.natAbs false 0
  if n < 0 then -magnitude else magnitude

end Binary64
end Replay
