import Lockstep.Numeral.Binary32
import Lockstep.Text.Blank

/- The shortest decimal text that reads back.

   1. `shortest m` is the decimal with the fewest digits among those that round to the magnitude
      `m`, and of these the nearest to it, the greater of two equally near ones. Nine digits
      always suffice; the exact expansion stands behind them, so that the result reads back
      whatever `m` is.
   2. `Binary32.chars` lays the digits out: positional when the point falls within or near the
      digits, with at least one digit on either side of it, and with an exponent otherwise. -/
namespace Lockstep.Binary32
open Numeral

/-- The decimal point of a positive number of units: the least `k` with
    `u * 2 ^ -149 < 10 ^ k`, found from the digits of the number scaled by 10 ^ 50. -/
def pointOf (u : Nat) : Int :=
  ((naturalChars (u * 10 ^ 50 / 2 ^ 149)).length : Int) - 50

/-- The two neighbours of a number of units on the grid of multiples of `10 ^ e`: the greatest
    coefficient not above it, and whether the next one is at least as near. -/
def neighbour (u : Nat) (e : Int) : Nat × Bool :=
  let num := match e with
    | .ofNat _ => u
    | .negSucc k => u * 10 ^ (k + 1)
  let grid := match e with
    | .ofNat k => 2 ^ 149 * 10 ^ k
    | .negSucc _ => 2 ^ 149
  (num / grid, grid ≤ 2 * (num % grid))

/-- The nearer of the two neighbours on a grid that rounds to `m`, if one does. -/
def candidate? (m : Nat) (e : Int) : Option Nat :=
  let (low, up) := neighbour (units m) e
  let readsBack := fun d => roundDecimal d e = m
  if up then
    if readsBack (low + 1) then some (low + 1) else if readsBack low then some low else none
  else
    if readsBack low then some low else if readsBack (low + 1) then some (low + 1) else none

/-- The first candidate with at most `9` digits, from the coarsest grid on. -/
def search (m : Nat) (point : Int) : Option (Nat × Int) :=
  (List.range 9).findSome? fun n : Nat =>
    let e := point - (n + 1 : Nat)
    (candidate? m e).map (·, e)

/-- The exact decimal expansion: a unit is `5 ^ 149` units of 10 ^ -149. -/
def exact (m : Nat) : Nat × Int := (units m * 5 ^ 149, -149)

/-- The shortest decimal that rounds to a positive finite magnitude. -/
def shortest (m : Nat) : Nat × Int := (search m (pointOf (units m))).getD (exact m)

/-! ## Layout -/

/-- Digits with the point after the first `point` of them; zeros fill the gap on either side, and
    both sides have a digit. -/
def positional (ds : List Char) (point : Int) : List Char :=
  match point with
  | .negSucc k => '0' :: '.' :: List.replicate (k + 1) '0' ++ ds
  | .ofNat 0 => '0' :: '.' :: ds
  | .ofNat k =>
    if k < ds.length then ds.take k ++ '.' :: ds.drop k
    else ds ++ List.replicate (k - ds.length) '0' ++ ['.', '0']

/-- Digits with the point after the first of them, and the exponent that makes up for it. -/
def scientific (ds : List Char) (point : Int) : List Char :=
  let fraction := match ds.tail with
    | [] => []
    | tail => '.' :: tail
  let e := point - 1
  ds.take 1 ++ fraction ++ 'e' :: ((if e < 0 then ['-'] else []) ++ naturalChars e.natAbs)

/-- The text of a positive decimal: positional from 10 ^ -4 up to, and without, 10 ^ 16. -/
def decimalChars (d : Nat) (e : Int) : List Char :=
  let point := e + (naturalChars d).length
  let ds := Text.stripEndBy (· = '0') (naturalChars d)
  if -4 < point ∧ point ≤ 16 then positional ds point else scientific ds point

/-- The text of a positive finite magnitude. -/
def magnitudeChars (m : Nat) : List Char := decimalChars (shortest m).1 (shortest m).2

/-- The text of a number. A text that stands for no number carries no sign. -/
def chars (x : Binary32) : List Char :=
  if x.isNaN then "NaN".toList
  else
    (if x.negative then ['-'] else []) ++
      (if x.isInfinite then "inf".toList
       else if x.magnitude = 0 then "0.0".toList
       else magnitudeChars x.magnitude)

end Lockstep.Binary32
