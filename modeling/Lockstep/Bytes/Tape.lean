import Lockstep.Bytes.Blob
import Lockstep.Bytes.Utf8

/- A growable byte buffer with a read cursor and a write cursor that move independently.

   1. Writing replaces the bytes at the write cursor and grows the buffer by no more than it needs.
   2. Reading a word past the end gives zero and moves nothing.
   3. A blob is written after its length, a signed word; reading one that is not all there gives an
      empty blob and leaves the read cursor before the length.
   4. Both cursors stay within the buffer: placing one past the end places it at the end, and
      shrinking the buffer takes them along (`Tape.Within`). -/
namespace Lockstep

/-- A byte buffer with two cursors, both offsets from its start. -/
structure Tape where
  bytes : List UInt8
  readPos : Nat
  writePos : Nat
deriving DecidableEq, Repr

namespace Tape
variable {α : Type}

/-- The tape without bytes. -/
def empty : Tape := ⟨[], 0, 0⟩

/-- A tape to be read from its start; writing appends. -/
def ofBytes (bytes : List UInt8) : Tape := ⟨bytes, 0, bytes.length⟩

/-- Both cursors lie within the buffer. -/
def Within (t : Tape) : Prop := t.readPos ≤ t.bytes.length ∧ t.writePos ≤ t.bytes.length

/-- The number of bytes not yet read. -/
def remaining (t : Tape) : Nat := t.bytes.length - t.readPos

/-! ## Writing -/

/-- Bytes written at the write cursor, over what stands there. -/
def write (t : Tape) (data : List UInt8) : Tape :=
  { t with
    bytes := t.bytes.take t.writePos ++ data ++ t.bytes.drop (t.writePos + data.length)
    writePos := t.writePos + data.length }

/-- A word. -/
def writeWord (t : Tape) (w : Word α) (x : α) : Tape := t.write (w.encode x)

/-- A length as the signed word that precedes a blob. -/
def lengthWord (n : Nat) : Int32 := Int32.ofNat n

/-- A byte string after its length. -/
def writeBlob (t : Tape) (b : Blob) : Tape :=
  (t.writeWord .int32 (lengthWord b.bytes.length)).write b.bytes

/-- A text, as the blob of its bytes. -/
def writeText (t : Tape) (s : String) : Tape := t.writeBlob ⟨utf8 s⟩

/-! ## Reading -/

/-- The next `n` bytes, when there are that many. -/
def take? (t : Tape) (n : Nat) : Option (List UInt8 × Tape) :=
  if t.readPos + n ≤ t.bytes.length then
    some ((t.bytes.drop t.readPos).take n, { t with readPos := t.readPos + n })
  else none

/-- A word, or zero when too few bytes are left. -/
def readWord (t : Tape) (w : Word α) : α × Tape :=
  match t.take? w.size with
  | some (bytes, t') => (w.decode bytes, t')
  | none => (w.ofNat 0, t)

/-- A blob. A length that is zero or negative announces an empty one. -/
def readBlob (t : Tape) : Blob × Tape :=
  let (size, t') := t.readWord .int32
  if size.toInt ≤ 0 then (⟨[]⟩, t')
  else
    match t'.take? size.toInt.toNat with
    | some (bytes, t'') => (⟨bytes⟩, t'')
    | none => (⟨[]⟩, t)

/-- A text; a blob that is no text reads as the empty one. -/
def readText (t : Tape) : String × Tape :=
  let (b, t') := t.readBlob
  ((ofUtf8? b.bytes).getD "", t')

/-! ## Cursors -/

def setReadPos (t : Tape) (n : Nat) : Tape := { t with readPos := min n t.bytes.length }

def setWritePos (t : Tape) (n : Nat) : Tape := { t with writePos := min n t.bytes.length }

/-- The buffer cut, or filled with zeros, to `n` bytes. -/
def resize (t : Tape) (n : Nat) : Tape :=
  { bytes := t.bytes.take n ++ List.replicate (n - t.bytes.length) 0
    readPos := min t.readPos n
    writePos := min t.writePos n }

/-! ## What an operation does to the cursors -/

theorem within_empty : empty.Within := by simp [Within, empty]

theorem within_ofBytes (bytes : List UInt8) : (ofBytes bytes).Within := by
  simp [Within, ofBytes]

theorem Within.write {t : Tape} (h : t.Within) (data : List UInt8) : (t.write data).Within := by
  obtain ⟨hr, hw⟩ := h
  constructor <;> simp only [Tape.write, List.length_append, List.length_take, List.length_drop] <;>
    omega

theorem Within.setReadPos {t : Tape} (h : t.Within) (n : Nat) : (t.setReadPos n).Within :=
  ⟨Nat.min_le_right .., h.2⟩

theorem Within.setWritePos {t : Tape} (h : t.Within) (n : Nat) : (t.setWritePos n).Within :=
  ⟨h.1, Nat.min_le_right ..⟩

theorem Within.resize {t : Tape} (h : t.Within) (n : Nat) : (t.resize n).Within := by
  obtain ⟨hr, hw⟩ := h
  constructor <;>
    simp only [Tape.resize, List.length_append, List.length_take, List.length_replicate] <;> omega

end Tape
end Lockstep
