import Lockstep.Bytes.Tape

/- Typed values on a tape.

   1. A `Shape` is a type of value that a tape takes: a word of one of five types, or what goes after a
      length, a text, a byte string or a blob. `put` writes a value of a shape and `get` reads one.
   2. A `Call` writes a value or asks for one of a shape, and `run` makes calls one after the other. The
      read cursor goes through the same buffer that the write cursor fills, so calls of both sorts may
      alternate in any order. -/
namespace Lockstep.Tape

/-- The types of value that are written to a tape. -/
inductive Shape where
  | uint8
  | int32
  | uint32
  | int64
  | binary32
  | text
  | bytes
  | blob
deriving DecidableEq, Repr

/-- The values of a shape. -/
abbrev Shape.Carrier : Shape → Type
  | .uint8 => UInt8
  | .int32 => Int32
  | .uint32 => UInt32
  | .int64 => Int64
  | .binary32 => Binary32
  | .text => String
  | .bytes => List UInt8
  | .blob => Blob

/-- A value with its shape. -/
structure Item where
  shape : Shape
  value : shape.Carrier

/-- A value of a shape, written. -/
def put (t : Tape) : (s : Shape) → s.Carrier → Tape
  | .uint8, x => t.writeWord .uint8 x
  | .int32, x => t.writeWord .int32 x
  | .uint32, x => t.writeWord .uint32 x
  | .int64, x => t.writeWord .int64 x
  | .binary32, x => t.writeWord .binary32 x
  | .text, s => t.writeText s
  | .bytes, data => t.writeBlob ⟨data⟩
  | .blob, b => t.writeBlob b

/-- A value of a shape, read. -/
def get (t : Tape) : (s : Shape) → s.Carrier × Tape
  | .uint8 => t.readWord .uint8
  | .int32 => t.readWord .int32
  | .uint32 => t.readWord .uint32
  | .int64 => t.readWord .int64
  | .binary32 => t.readWord .binary32
  | .text => t.readText
  | .bytes => (t.readBlob).map Blob.bytes id
  | .blob => t.readBlob

inductive Call where
  /-- A value to be written. -/
  | put (i : Item)
  /-- A value to be read. -/
  | get (s : Shape)

/-- What calls read, in their order, and the tape after them. -/
def run (t : Tape) : List Call → List Item × Tape
  | [] => ([], t)
  | .put i :: calls => run (t.put i.shape i.value) calls
  | .get s :: calls =>
    let (x, t') := t.get s
    let (read, t'') := run t' calls
    (⟨s, x⟩ :: read, t'')

namespace Call

/-- What calls write, in their order. -/
def written : List Call → List Item
  | [] => []
  | .put i :: calls => i :: written calls
  | .get _ :: calls => written calls

/-- What calls ask for, in their order. -/
def asked : List Call → List Shape
  | [] => []
  | .put _ :: calls => asked calls
  | .get s :: calls => s :: asked calls

/-- At any moment, what calls have asked for is what they wrote first: each reading comes after the
    writing of the same number, and asks for the shape of what was written there. -/
def InStep (calls : List Call) : Prop :=
  ∀ done, done <+: calls → asked done <+: (written done).map Item.shape

end Call
end Lockstep.Tape
