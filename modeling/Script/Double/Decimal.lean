import Script.Double

/-!
# Decimals and doubles

Reading a decimal gives the double nearest to it. Writing goes the other way: `shortest` is the
decimal with the fewest digits that reads back as the given magnitude, and the nearest of those.
On a grid of decimals with one more digit at a time it tries the two neighbours of the exact
value; every magnitude is itself a decimal, so the search has an end.
-/
namespace Script

/-- `digits` times `10 ^ exponent`. -/
structure Decimal where
  digits : Nat
  exponent : Int
  deriving DecidableEq

namespace Decimal

def toMagnitude? (d : Decimal) : Option Magnitude :=
  Magnitude.round (d.digits * Magnitude.one * Nat.pow 10 d.exponent.toNat)
    (Nat.pow 10 (-d.exponent).toNat)

/-- The double nearest to a decimal. Exponents far outside the format are decided without
computing the power of ten. -/
def toDouble (negative : Bool) (d : Decimal) : Double :=
  if d.digits = 0 ∨ 3 * d.exponent + Nat.log2 d.digits < -1080 then .finite negative .zero
  else if 400 < d.exponent then .infinite negative
  else
    match d.toMagnitude? with
    | some m => .finite negative m
    | none => .infinite negative

end Decimal

namespace Magnitude

/-- An exponent not below that of the leading decimal digit of `m`. The quotient 1233 / 4096 is just
below the decimal logarithm of two. -/
def topExponent (m : Magnitude) : Int := ((Nat.log2 m.units : Int) - 1073) * 1233 / 4096 + 1

/-- The decimal with an exponent, next to `num / den` times `10 ^ exponent`, that reads back as `m`:
the nearer one if both neighbours do, and from half way the even one. -/
def neighbour? (m : Magnitude) (exponent : Int) (num den : Nat) : Option Decimal :=
  let below : Decimal := ⟨num / den, exponent⟩
  let above : Decimal := ⟨num / den + 1, exponent⟩
  if below.toMagnitude? = some m then
    if above.toMagnitude? = some m then some ⟨halfEven num den, exponent⟩ else some below
  else if above.toMagnitude? = some m then some above else none

def onGrid? (m : Magnitude) (exponent : Int) : Option Decimal :=
  m.neighbour? exponent (m.units * Nat.pow 10 (-exponent).toNat) (one * Nat.pow 10 exponent.toNat)

def exactDecimal (m : Magnitude) : Decimal := ⟨m.units * Nat.pow 5 1074, -1074⟩

/-- The first find at an exponent, going down from one by one. -/
def searchDown {α : Type} (find? : Int → Option α) (otherwise : α) :
    (steps : Nat) → (exponent : Int) → α
  | 0, _ => otherwise
  | steps + 1, exponent =>
      match find? exponent with
      | some found => found
      | none => searchDown find? otherwise steps (exponent - 1)

/-- The decimal of fewest digits that reads back as a magnitude that is not zero. The grids get
finer by one digit at a time. -/
def shortest (m : Magnitude) : Decimal := searchDown m.onGrid? m.exactDecimal 1100 m.topExponent

end Magnitude
end Script
