import Lockstep.Numeral.Decimal

/- Single precision numbers, as bits.

   1. `Binary32` is a sign, eight bits of exponent and twenty-three of fraction; two values are
      equal in the sense of `=` exactly when their bits agree. `Binary32.same` is the comparison
      of numbers: the two zeros are the same, and what is not a number is the same as nothing.
   2. The magnitude below the sign bit counts the numbers from zero upwards. `significand` and
      `power` take it apart: the number is `significand * 2 ^ power` units of 2 ^ -149.
   3. `roundRatio` is the magnitude nearest to a ratio of naturals, of two equally near ones the
      even; `magnitude_roundRatio`-style facts follow from its one formula `power * 2 ^ 23 + m`,
      which also carries a significand of 2 ^ 24 into the next power.
   4. `ofDecimal` rounds a decimal numeral. -/
namespace Lockstep

/-- A single precision number, by its bits. -/
structure Binary32 where
  bits : UInt32
deriving DecidableEq, Repr, Inhabited

namespace Binary32

/-- The magnitude of the infinities. -/
def infinityMagnitude : Nat := 0x7f800000

/-- The sign bit. -/
def negative (x : Binary32) : Bool := 2 ^ 31 ≤ x.bits.toNat

/-- The bits below the sign. -/
def magnitude (x : Binary32) : Nat := x.bits.toNat % 2 ^ 31

def isNaN (x : Binary32) : Bool := infinityMagnitude < x.magnitude

def isInfinite (x : Binary32) : Bool := x.magnitude = infinityMagnitude

/-- The number with a given sign and magnitude. -/
def ofMagnitude (negative : Bool) (m : Nat) : Binary32 :=
  ⟨UInt32.ofNat (if negative then 2 ^ 31 + m else m)⟩

/-- Positive zero. -/
def zero : Binary32 := ⟨0⟩

/-- Comparison as numbers. -/
def same (x y : Binary32) : Bool :=
  !x.isNaN && !y.isNaN && (x == y || (x.magnitude == 0 && y.magnitude == 0))

/-! ## Magnitudes and the numbers they stand for -/

/-- The power of two by which the significand of a magnitude counts. -/
def power (m : Nat) : Nat := m / 2 ^ 23 - 1

/-- The significand of a magnitude, with its leading bit written out. -/
def significand (m : Nat) : Nat := m - power m * 2 ^ 23

/-- The number of units of 2 ^ -149 in a magnitude. -/
def units (m : Nat) : Nat := significand m * 2 ^ power m

/-- The magnitude nearest to `num / den`, a tie going to the even one; a ratio past the largest
    finite number gives the infinity. -/
def roundRatio (num den : Nat) : Nat :=
  let scaled := num * 2 ^ 149
  let p := (scaled / den).log2 - 23
  let grid := den * 2 ^ p
  let m := scaled / grid
  let rest := scaled % grid
  let up := grid < 2 * rest ∨ (2 * rest = grid ∧ m % 2 = 1)
  min (p * 2 ^ 23 + m + if up then 1 else 0) infinityMagnitude

/-- The magnitude nearest to `coefficient * 10 ^ exponent`. The first two cases answer without
    building a large power: such a number is past the largest finite one, or under half of the
    smallest. -/
def roundDecimal (coefficient : Nat) (exponent : Int) : Nat :=
  if coefficient = 0 then 0
  else if 39 ≤ exponent then infinityMagnitude
  else if exponent + 50 + coefficient.log2 < 0 then 0
  else match exponent with
    | .ofNat e => roundRatio (coefficient * 10 ^ e) 1
    | .negSucc e => roundRatio coefficient (10 ^ (e + 1))

/-- The number nearest to what a decimal numeral denotes. -/
def ofDecimal : Decimal → Binary32
  | .finite negative coefficient exponent =>
    ofMagnitude negative (roundDecimal coefficient exponent)
  | .infinite negative => ofMagnitude negative infinityMagnitude
  | .notANumber negative => ofMagnitude negative 0x7fc00000

/-- The number that a decimal numeral spells. -/
def ofChars? (cs : List Char) : Option Binary32 := (Decimal.ofChars? cs).map ofDecimal

end Binary32
end Lockstep
