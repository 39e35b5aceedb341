import Lockstep.Bytes.Typed

/- What can be done to a tape.

   1. An `Operation` writes a value or plain bytes, reads a value, places a cursor, or changes the buffer.
      `perform` does it.
   2. A tape is `Reachable` when operations lead to it from a new one, with bytes to be read or without. -/
namespace Lockstep.Tape

inductive Operation where
  | put (i : Item)
  /-- Bytes as they are, without a length. -/
  | write (data : List UInt8)
  | get (s : Shape)
  | setReadPos (n : Nat)
  | setWritePos (n : Nat)
  | resize (n : Nat)
  | clear

/-- A tape without bytes, with room for some. The room does not show. -/
def withRoom (_ : Nat) : Tape := empty

/-- The tape without its bytes, to be used again. -/
def clear (_ : Tape) : Tape := empty

/-- The tape after an operation. -/
def perform (t : Tape) : Operation → Tape
  | .put i => t.put i.shape i.value
  | .write data => t.write data
  | .get s => (t.get s).2
  | .setReadPos n => t.setReadPos n
  | .setWritePos n => t.setWritePos n
  | .resize n => t.resize n
  | .clear => t.clear

/-- A tape that operations lead to. -/
inductive Reachable : Tape → Prop
  | empty : Reachable .empty
  | withRoom (n : Nat) : Reachable (.withRoom n)
  | ofBytes (bytes : List UInt8) : Reachable (.ofBytes bytes)
  | perform {t : Tape} (h : Reachable t) (op : Operation) : Reachable (t.perform op)

/-- The tape after operations, one after the other. -/
def after (t : Tape) (ops : List Operation) : Tape := ops.foldl perform t

/-- Operations lead to reachable tapes only. -/
theorem Reachable.after {t : Tape} (h : Reachable t) (ops : List Operation) : Reachable (t.after ops) := by
  induction ops generalizing t with
  | nil => exact h
  | cons op ops ih => exact ih (h.perform op)

end Lockstep.Tape
