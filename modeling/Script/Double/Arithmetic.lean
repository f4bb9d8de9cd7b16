import Script.Double

/-!
# Arithmetic on doubles

Sums, products, quotients and remainders are computed exactly in units and rounded once. Powers
are those of the platform's `pow`, except that zero raised to a negative power is the positive
infinity whatever the sign of the zero.
-/
namespace Script.Double

def neg : Double → Double
  | nan => nan
  | infinite negative => infinite (!negative)
  | finite negative m => finite (!negative) m

def signedUnits (negative : Bool) (m : Magnitude) : Int :=
  if negative then -(m.units : Int) else m.units

def add : Double → Double → Double
  | nan, _ => nan
  | _, nan => nan
  | infinite a, infinite b => if a = b then infinite a else nan
  | infinite a, finite _ _ => infinite a
  | finite _ _, infinite b => infinite b
  | finite a m, finite b n =>
      let sum := signedUnits a m + signedUnits b n
      rounded (if sum = 0 then a && b else sum < 0) sum.natAbs 1

def sub (x y : Double) : Double := add x (neg y)

def mul : Double → Double → Double
  | nan, _ => nan
  | _, nan => nan
  | infinite a, infinite b => infinite (a != b)
  | infinite a, finite b n => if n.units = 0 then nan else infinite (a != b)
  | finite a m, infinite b => if m.units = 0 then nan else infinite (a != b)
  | finite a m, finite b n => rounded (a != b) (m.units * n.units) Magnitude.one

def div : Double → Double → Double
  | nan, _ => nan
  | _, nan => nan
  | infinite _, infinite _ => nan
  | infinite a, finite b _ => infinite (a != b)
  | finite a _, infinite b => finite (a != b) .zero
  | finite a m, finite b n =>
      if n.units = 0 then if m.units = 0 then nan else infinite (a != b)
      else rounded (a != b) (m.units * Magnitude.one) n.units

/-- The remainder of the division that cuts its quotient toward zero; it has the sign of the
dividend. -/
def mod : Double → Double → Double
  | nan, _ => nan
  | _, nan => nan
  | infinite _, _ => nan
  | finite a m, infinite _ => finite a m
  | finite a m, finite _ n => if n.units = 0 then nan else rounded a (m.units % n.units) 1

def pow (x y : Double) : Double :=
  match y with
  | infinite true => if x.isZero then infinite false else platform
  | finite true n => if x.isZero && n.units != 0 then infinite false else platform
  | _ => platform
where
  platform : Double := ofBits (Float.pow (Float.ofBits x.toBits) (Float.ofBits y.toBits)).toBits

def lt : Double → Double → Bool
  | nan, _ => false
  | _, nan => false
  | infinite a, infinite b => a && !b
  | infinite a, finite _ _ => a
  | finite _ _, infinite b => !b
  | finite a m, finite b n => signedUnits a m < signedUnits b n

def le : Double → Double → Bool
  | nan, _ => false
  | _, nan => false
  | infinite a, infinite b => a || !b
  | infinite a, finite _ _ => a
  | finite _ _, infinite b => !b
  | finite a m, finite b n => signedUnits a m ≤ signedUnits b n

end Script.Double
