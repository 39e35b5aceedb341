import Lockstep.Frame.Basic
import Lockstep.Queue.Basic

/- How a barrier fails.

   A limit of time is a number of milliseconds. Its text is in seconds with the fraction that it
   has, in milliseconds below one second, and in nanoseconds for no time at all. -/
namespace Lockstep.Barrier

/-- The text of a number of milliseconds. -/
def durationText (ms : Nat) : String :=
  let digits := fun n => String.ofList (Numeral.naturalChars n)
  if ms = 0 then "0ns"
  else if ms < 1000 then digits ms ++ "ms"
  else
    let fraction := Text.stripEndBy (· = '0') (Numeral.padded 3 (ms % 1000))
    digits (ms / 1000) ++ (if fraction = [] then "" else "." ++ String.ofList fraction) ++ "s"

inductive Error where
  /-- A peer ended its stream. -/
  | disconnected (peer : Nat)
  | frame (e : Frame.Error)
  /-- What had arrived did not complete the barrier in time. -/
  | timedOut (ms : Nat)
  | queue (e : Queue.Error)
deriving DecidableEq, Repr

def Error.message : Error → String
  | disconnected peer => s!"peer {peer} closed the connection"
  | frame e => s!"protocol error: {e.message}"
  | timedOut ms => s!"barrier timed out after {durationText ms}"
  | queue e => s!"event queue: {e.message}"

end Lockstep.Barrier
