import Lockstep.Numeral.Integer

/- Decimal numerals with a fraction and an exponent.

   1. `Decimal` is what such a numeral denotes: a signed coefficient times a power of ten, an
      infinity, or no number.
   2. `Decimal.ofChars?` reads one: an optional sign, then a word (`inf`, `infinity`, `nan`, in any
      case) or digits with at most one point among or around them, then an optional exponent. -/
namespace Lockstep

/-- What a decimal numeral denotes. -/
inductive Decimal where
  /-- The number `coefficient * 10 ^ exponent`, with its sign; zero has one, too. -/
  | finite (negative : Bool) (coefficient : Nat) (exponent : Int)
  | infinite (negative : Bool)
  | notANumber (negative : Bool)
deriving DecidableEq, Repr

namespace Decimal
open Numeral

/-- An exponent: nothing, or a mark, an optional sign and at least one digit. -/
def exponent? : List Char → Option Int
  | [] => some 0
  | mark :: body =>
    if mark = 'e' ∨ mark = 'E' then
      match body with
      | '-' :: ds => (digits? ds).map fun n => -(n : Int)
      | '+' :: ds => (digits? ds).map fun n => (n : Int)
      | ds => (digits? ds).map fun n => (n : Int)
    else none

/-- Digits before and after the point of a numeral, and what follows them. -/
def parts (cs : List Char) : List Char × List Char × List Char :=
  let whole := cs.takeWhile Char.isDigit
  match cs.dropWhile Char.isDigit with
  | '.' :: body => (whole, body.takeWhile Char.isDigit, body.dropWhile Char.isDigit)
  | body => (whole, [], body)

/-- A numeral in digits, without its sign. -/
def ofDigits? (negative : Bool) (cs : List Char) : Option Decimal :=
  let (whole, fraction, tail) := parts cs
  if whole = [] ∧ fraction = [] then none
  else (exponent? tail).map fun e =>
    .finite negative (digitsValue (whole ++ fraction)) (e - fraction.length)

/-- A numeral without its sign. -/
def ofUnsigned? (negative : Bool) (cs : List Char) : Option Decimal :=
  let word := cs.map Char.toLower
  if word = "inf".toList ∨ word = "infinity".toList then some (.infinite negative)
  else if word = "nan".toList then some (.notANumber negative)
  else ofDigits? negative cs

/-- A decimal numeral. -/
def ofChars? : List Char → Option Decimal
  | '-' :: cs => ofUnsigned? true cs
  | '+' :: cs => ofUnsigned? false cs
  | cs => ofUnsigned? false cs

end Decimal
end Lockstep
