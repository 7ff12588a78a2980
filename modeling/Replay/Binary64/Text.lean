import Replay.Binary64.Shortest
/-!
How reals are written.

No exponent is ever written.  Inside a message a literal shows its shortest digits and nothing else,
so `1.0` is `1`.  A value that has no fraction is printed in full with one decimal, so that it
cannot be taken for an integer.
-/

namespace Replay
namespace Binary64

/-- Positional notation, padded with zeros on either side as the exponent asks. -/
def Decimal.positional (d : Decimal) : String :=
  let digits := Nat.toDigits 10 d.digits
  let places := (-d.exponent).toNat
  let whole :=
    if 0 ≤ d.exponent then digits ++ List.replicate d.exponent.toNat '0'
    else if places < digits.length then
      digits.take (digits.length - places) ++ '.' :: digits.drop (digits.length - places)
    else '0' :: '.' :: List.replicate (places - digits.length) '0' ++ digits
  String.ofList whole

def signed (negative : Bool) (text : String) : String :=
  if negative then "-" ++ text else text

/-- The magnitude as an integer, for a number without a fraction. -/
def Dyadic.whole? (d : Dyadic) : Option Nat :=
  if 0 ≤ d.exponent then some (d.mantissa * (1 <<< d.exponent.toNat))
  else
    let unit := 1 <<< (-d.exponent).toNat
    if d.mantissa % unit = 0 then some (d.mantissa / unit) else none

def Dyadic.shortestText (d : Dyadic) : String :=
  signed d.negative (shortest d.mantissa d.exponent).positional

/-- The shortest digits that read back. -/
def shortestText (x : Float) : String :=
  match parts x with
  | .finite d => d.shortestText
  | .infinite negative => signed negative "inf"
  | .notANumber => "NaN"

/-- As `shortestText`, but a number without a fraction is written exactly and ends in `.0`. -/
def printedText (x : Float) : String :=
  match parts x with
  | .finite d =>
    match d.whole? with
    | some n => signed d.negative (toString n ++ ".0")
    | none => d.shortestText
  | .infinite negative => signed negative "inf"
  | .notANumber => "NaN"

end Binary64
end Replay
