/-!
# Doubles

The numbers of the binary64 format, with their exact values. Every finite one is a whole multiple
of `2 ^ -1074`; `units` is that multiple, so exact arithmetic on doubles is arithmetic on natural
numbers, and `Magnitude.round` is the only place where a result is rounded: to the nearest
magnitude, and from half way to the one whose significand is even.
-/
namespace Script

/-- `significand` times `2 ^ scale` units. A significand is full unless the scale is least. -/
structure Magnitude where
  significand : Nat
  scale : Nat
  significand_lt : significand < 1 <<< 53
  scale_lt : scale < 2046
  full : scale = 0 ∨ 1 <<< 52 ≤ significand
  deriving DecidableEq

inductive Double where
  | nan
  | infinite (negative : Bool)
  | finite (negative : Bool) (magnitude : Magnitude)
  deriving DecidableEq

namespace Magnitude

def zero : Magnitude := ⟨0, 0, by decide, by decide, .inl rfl⟩

instance : Inhabited Magnitude := ⟨zero⟩

def one : Nat := 1 <<< 1074

def units (x : Magnitude) : Nat := x.significand <<< x.scale

def ofParts? (significand scale : Nat) : Option Magnitude :=
  if h : significand < 1 <<< 53 ∧ scale < 2046 ∧ (scale = 0 ∨ 1 <<< 52 ≤ significand) then
    some ⟨significand, scale, h.1, h.2.1, h.2.2⟩
  else none

/-- The whole number nearest to a quotient, from half way the even one. -/
def halfEven (num den : Nat) : Nat :=
  let q := num / den
  let twice := 2 * (num % den)
  if twice < den ∨ (twice = den ∧ q % 2 = 0) then q else q + 1

/-- The least scale at which `num / den` units have a significand of at most 53 bits. -/
def scaleFor (num den : Nat) : Nat := Nat.log2 (num / den) - 52

/-- The magnitude nearest to `num / den` units, unless that is too large for the format. -/
def round (num den : Nat) : Option Magnitude :=
  let scale := scaleFor num den
  let significand := halfEven num (den <<< scale)
  if significand < 1 <<< 53 then ofParts? significand scale else ofParts? (1 <<< 52) (scale + 1)

end Magnitude

namespace Double

instance : Inhabited Double := ⟨nan⟩

def zero : Double := finite false .zero

def rounded (negative : Bool) (num den : Nat) : Double :=
  match Magnitude.round num den with
  | some magnitude => finite negative magnitude
  | none => infinite negative

def ofNat (n : Nat) : Double := rounded false (n * Magnitude.one) 1

def ofInt (i : Int) : Double := rounded (i < 0) (i.natAbs * Magnitude.one) 1

def isNaN : Double → Bool
  | nan => true
  | _ => false

def isInfinite : Double → Bool
  | infinite _ => true
  | _ => false

def isZero : Double → Bool
  | finite _ m => m.significand = 0
  | _ => false

/-- The whole part of a number, cut toward zero; zero if it is not finite. -/
def truncate : Double → Int
  | finite negative m =>
      let whole : Int := (m.units / Magnitude.one : Nat)
      if negative then -whole else whole
  | _ => 0

/-- The nearest whole number, from half way the even one; what is not finite stays as it is. -/
def nearestWhole : Double → Double
  | finite negative m =>
      let whole : Int := (Magnitude.halfEven m.units Magnitude.one : Nat)
      ofInt (if negative then -whole else whole)
  | x => x

def whole? : Double → Option Int
  | finite negative m =>
      if m.units % Magnitude.one = 0 then some (truncate (finite negative m)) else none
  | _ => none

/-- The 64 bits of a number: sign, exponent and fraction. -/
def toBits : Double → UInt64
  | nan => 0x7ff8000000000000
  | infinite negative => if negative then 0xfff0000000000000 else 0x7ff0000000000000
  | finite negative m =>
      UInt64.ofNat ((if negative then 1 <<< 63 else 0) + (m.scale <<< 52) + m.significand)

def ofBits (bits : UInt64) : Double :=
  let n := bits.toNat
  let negative := 1 <<< 63 ≤ n
  let exponent := (n >>> 52) % 2048
  let fraction := n % (1 <<< 52)
  if exponent = 2047 then if fraction = 0 then infinite negative else nan
  else
    let parts :=
      if exponent = 0 then Magnitude.ofParts? fraction 0
      else Magnitude.ofParts? ((1 <<< 52) + fraction) (exponent - 1)
    match parts with
    | some magnitude => finite negative magnitude
    | none => nan

end Double
end Script
