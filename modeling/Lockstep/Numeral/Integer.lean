/- Integer numerals.

   1. `natural? limit` reads an unsigned numeral below `limit`: an optional plus sign and at least
      one digit, leading zeros allowed, nothing else.
   2. `int32?` reads a signed numeral in the range of 32-bit integers; `int32Text` writes one.
   3. `padded` writes a natural number with at least a given number of digits. -/
namespace Lockstep.Numeral

-- A power of natural numbers is the one of the core library, whatever else a module imports.
attribute [instance (high), default_instance (high + 1)] instPowNat

/-- The value of a digit. -/
def digitValue (c : Char) : Nat := c.toNat - '0'.toNat

/-- The number that a run of digits spells, most significant first. -/
def digitsValue (cs : List Char) : Nat := cs.foldl (fun n c => 10 * n + digitValue c) 0

/-- A run of at least one digit, and nothing else. -/
def digits? (cs : List Char) : Option Nat :=
  if cs ≠ [] ∧ cs.all Char.isDigit then some (digitsValue cs) else none

/-- An unsigned numeral below `limit`. -/
def natural? (limit : Nat) (cs : List Char) : Option Nat :=
  let body := match cs with
    | '+' :: body => body
    | body => body
  (digits? body).filter (· < limit)

/-- A signed numeral in the range of 32-bit integers. -/
def int32? (cs : List Char) : Option Int32 :=
  match cs with
  | '-' :: body => ((digits? body).filter (· ≤ 2 ^ 31)).map fun n => Int32.ofInt (-n)
  | body => (natural? (2 ^ 31) body).map fun n => Int32.ofInt n

/-- The decimal digits of a natural number. -/
def naturalChars (n : Nat) : List Char := Nat.toDigits 10 n

/-- A 32-bit integer in decimal digits, after a minus sign when it is negative. -/
def int32Chars (n : Int32) : List Char :=
  if n.toInt < 0 then '-' :: naturalChars n.toInt.natAbs else naturalChars n.toInt.natAbs

/-- A natural number with at least `width` digits. -/
def padded (width n : Nat) : List Char :=
  List.replicate (width - (naturalChars n).length) '0' ++ naturalChars n

end Lockstep.Numeral
