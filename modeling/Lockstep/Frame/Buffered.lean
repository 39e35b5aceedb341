import Lockstep.Bytes.Operation
import Lockstep.Frame.Stream

/- Frames in buffers with cursors.

   1. An `Encoder` writes frames on a tape, each at the write cursor: the byte of its kind, and for a
      text its length and its bytes, one write after the other. It gives what then stands from where the
      cursor was. A text over the limit is refused before anything is written.
   2. A `Decoder` has a buffer and a position in it. Reading moves the position only; what was read
      stays in the buffer until more bytes are fed, and is taken out then (`compact`).
   3. What these hold is an `Outbox` and a `Reader` (`Encoder.outbox`, `Decoder.reader`). -/
namespace Lockstep
open Lockstep.Frame

/-! ## Writing -/

/-- At the end of a tape, writing appends. -/
theorem Tape.write_ofBytes (bytes data : List UInt8) :
    (ofBytes bytes).write data = ofBytes (bytes ++ data) := by
  have hbehind : bytes.drop (bytes.length + data.length) = [] :=
    List.drop_eq_nil_of_le (Nat.le_add_right ..)
  simp only [ofBytes, write, List.take_length, hbehind, List.append_nil, List.length_append]

/-- A tape that is only appended to: it was not read, and its write cursor stands at its end. -/
structure Encoder where
  tape : Tape
  appending : tape = .ofBytes tape.bytes

namespace Encoder

@[ext] theorem ext {enc enc' : Encoder} (h : enc.tape.bytes = enc'.tape.bytes) : enc = enc' := by
  have htape : enc.tape = enc'.tape := by rw [enc.appending, enc'.appending, h]
  cases enc
  cases enc'
  simpa using htape

theorem writePos_eq (enc : Encoder) : enc.tape.writePos = enc.tape.bytes.length :=
  congrArg Tape.writePos enc.appending

def empty : Encoder := ⟨.empty, rfl⟩

/-- The encoder without its bytes, to be used again. -/
def reset (enc : Encoder) : Encoder := ⟨enc.tape.clear, rfl⟩

@[simp] theorem reset_eq (enc : Encoder) : enc.reset = empty := rfl

/-- The encoder with some bytes written. -/
def write (enc : Encoder) (data : List UInt8) : Encoder where
  tape := enc.tape.write data
  appending := by
    rw [enc.appending, Tape.write_ofBytes]
    rfl

/-- The encoder with a word written. -/
def writeWord {α : Type} (enc : Encoder) (w : Word α) (x : α) : Encoder := enc.write (w.encode x)

@[simp] theorem bytes_write (enc : Encoder) (data : List UInt8) :
    (enc.write data).tape.bytes = enc.tape.bytes ++ data := by
  show (enc.tape.write data).bytes = _
  rw [enc.appending, Tape.write_ofBytes]
  rfl

@[simp] theorem bytes_writeWord {α : Type} (enc : Encoder) (w : Word α) (x : α) :
    (enc.writeWord w x).tape.bytes = enc.tape.bytes ++ w.encode x := enc.bytes_write _

/-- What stands on the tape from a position on. -/
def since (enc : Encoder) (start : Nat) : List UInt8 := enc.tape.bytes.drop start

/-- A frame written: its bytes or why it was refused, and the encoder after it. -/
def encode (enc : Encoder) (f : Frame) : Except Frame.Error (List UInt8) × Encoder :=
  let start := enc.tape.writePos
  match f with
  | .events text =>
    if maxPayload < text.utf8ByteSize then (.error (.payloadTooLarge text.utf8ByteSize), enc)
    else
      let enc' := ((enc.writeWord .uint8 Kind.events.byte).writeWord .uint32
        (UInt32.ofNat text.utf8ByteSize)).write (utf8 text)
      (.ok (enc'.since start), enc')
  | f =>
    let enc' := enc.writeWord .uint8 f.kind.byte
    (.ok (enc'.since start), enc')

/-- Frames written one after the other: what each of them gave, and the encoder after them. -/
def encodeAll (enc : Encoder) : List Frame → List (Except Frame.Error (List UInt8)) × Encoder
  | [] => ([], enc)
  | f :: fs =>
    let (given, afterFrame) := enc.encode f
    let (more, enc') := afterFrame.encodeAll fs
    (given :: more, enc')

/-- A frame on a tape of its own. -/
def encodeFrame (f : Frame) : Except Frame.Error (List UInt8) :=
  match empty.encode f with
  | (.error e, _) => .error e
  | (.ok _, enc) => .ok enc.tape.bytes

/-- The frames written, one after the other. -/
def outbox (enc : Encoder) : Outbox := ⟨enc.tape.bytes⟩

end Encoder

/-! ## Reading -/

/-- A buffer of which the bytes before a position were read. -/
structure Decoder where
  buffer : Array UInt8
  readPos : Nat
  within : readPos ≤ buffer.size

namespace Decoder

def empty : Decoder := ⟨#[], 0, Nat.le_refl 0⟩

/-- The bytes not read. -/
def reader (d : Decoder) : Reader := ⟨d.buffer.toList.drop d.readPos⟩

/-- The number of bytes not read. -/
def remaining (d : Decoder) : Nat := d.buffer.size - d.readPos

/-- The decoder without the bytes that were read. -/
def compact (d : Decoder) : Decoder :=
  if 0 < d.readPos then ⟨d.buffer.extract d.readPos, 0, Nat.zero_le _⟩ else d

/-- The decoder after more bytes arrived. -/
def feed (d : Decoder) (bytes : List UInt8) : Decoder where
  buffer := d.compact.buffer ++ bytes
  readPos := d.compact.readPos
  within := by
    rw [← Array.length_toList, Array.toList_appendList, List.length_append]
    exact Nat.le_add_right_of_le d.compact.within

/-- The decoder read up to a position. -/
def readTo (d : Decoder) (n : Nat) (h : n ≤ d.buffer.size) : Decoder := ⟨d.buffer, n, h⟩

/-- The bytes of the buffer between two positions. -/
def slice (d : Decoder) (start stop : Nat) : List UInt8 := (d.buffer.extract start stop).toList

/-- The frame of events whose first byte stands at the position. -/
def nextEvents (d : Decoder) : Option (Except Error Frame) × Decoder :=
  let lengthStart := d.readPos + 1
  let bodyStart := lengthStart + 4
  if d.buffer.size < bodyStart then (none, d)
  else
    let size := (Word.uint32.decode (d.slice lengthStart bodyStart)).toNat
    if maxPayload < size then
      (some (.error (.payloadTooLarge size)), d.readTo d.buffer.size (Nat.le_refl _))
    else if hend : d.buffer.size < bodyStart + size then (none, d)
    else
      let after := d.readTo (bodyStart + size) (Nat.le_of_not_lt hend)
      match ofUtf8? (d.slice bodyStart (bodyStart + size)) with
      | some text => (some (.ok (.events text)), after)
      | none => (some (.error .invalidUtf8), after)

/-- The next frame. A byte that starts none is passed over, and stays so when no frame follows. -/
def next (d : Decoder) : Option (Except Error Frame) × Decoder :=
  if hbyte : d.readPos < d.buffer.size then
    match Kind.ofByte? d.buffer[d.readPos] with
    | none => (d.readTo (d.readPos + 1) hbyte).next
    | some .swapRequest => (some (.ok .swapRequest), d.readTo (d.readPos + 1) hbyte)
    | some .swapNow => (some (.ok .swapNow), d.readTo (d.readPos + 1) hbyte)
    | some .events => d.nextEvents
  else (none, d)
termination_by d.buffer.size - d.readPos
decreasing_by
  simp only [readTo]
  omega

theorem remaining_nextEvents_lt {d d' : Decoder} {result : Except Error Frame}
    (h : d.nextEvents = (some result, d')) : d'.remaining < d.remaining := by
  unfold nextEvents at h
  simp only at h
  split at h
  · cases h
  · split at h
    · cases h
      simp only [remaining, readTo]
      omega
    · split at h
      · cases h
      · split at h <;> cases h <;> simp only [remaining, readTo] <;> omega

/-- A frame that comes out leaves fewer bytes. -/
theorem remaining_next_lt {d d' : Decoder} {result : Except Error Frame}
    (h : d.next = (some result, d')) : d'.remaining < d.remaining := by
  fun_induction next d with
  | case1 d hbyte _ ih =>
    have hless := ih h
    simp only [remaining, readTo] at hless ⊢
    omega
  | case2 d hbyte | case3 d hbyte =>
    cases h
    simp only [remaining, readTo]
    omega
  | case4 d => exact remaining_nextEvents_lt h
  | case5 => cases h

/-- All frames there are, and the decoder after them. -/
def drain (d : Decoder) : List (Except Error Frame) × Decoder :=
  match _h : d.next with
  | (none, d') => ([], d')
  | (some f, d') =>
    let (fs, d'') := drain d'
    (f :: fs, d'')
termination_by d.remaining
decreasing_by exact remaining_next_lt _h

/-- What a use gives, and the decoder after it. -/
def use (d : Decoder) : Reader.Use → Option (Except Error Frame) × Decoder
  | .feed bytes => (none, d.feed bytes)
  | .next => d.next

/-- What some uses give, and the decoder after them. -/
def useAll (d : Decoder) : List Reader.Use → List (Except Error Frame) × Decoder
  | [] => ([], d)
  | u :: us =>
    let (given, afterUse) := d.use u
    let (more, d') := afterUse.useAll us
    (given.toList ++ more, d')

/-- What a new decoder gives over some uses and a drain after them. -/
def decode (uses : List Reader.Use) : List (Except Error Frame) × Decoder :=
  let (given, d) := empty.useAll uses
  let (more, d') := d.drain
  (given ++ more, d')

end Decoder
end Lockstep
