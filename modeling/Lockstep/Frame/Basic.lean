import Lockstep.Bytes.Utf8
import Lockstep.Bytes.Word

/- Frames: the messages of the barriers.

   1. A frame carries a queue as text, or is one of two bare signals. Each kind has a byte; only
      the kind with text is followed by a body, whose length in bytes stands before it in a word.
   2. `encode` gives the bytes of a frame. A text longer than `maxPayload` bytes is refused.
   3. An `Outbox` collects the bytes of frames; a refused frame leaves it as it was. -/
namespace Lockstep

inductive Frame where
  | events (text : String)
  | swapRequest
  | swapNow
deriving DecidableEq, Repr

namespace Frame

inductive Kind where
  | events | swapRequest | swapNow
deriving DecidableEq, Repr

inductive Error where
  | payloadTooLarge (size : Nat)
  | invalidUtf8
deriving DecidableEq, Repr

def Error.message : Error → String
  | payloadTooLarge size => s!"payload of {size} bytes exceeds the frame limit"
  | invalidUtf8 => "events payload is not valid UTF-8"

def Kind.byte : Kind → UInt8
  | events => 1
  | swapRequest => 2
  | swapNow => 3

def Kind.ofByte? (b : UInt8) : Option Kind :=
  if b = 1 then some events
  else if b = 2 then some swapRequest
  else if b = 3 then some swapNow
  else none

/-- Whether a length and a body follow the byte of a kind. -/
def Kind.hasBody : Kind → Bool
  | events => true
  | _ => false

@[simp] theorem Kind.ofByte?_byte (k : Kind) : ofByte? k.byte = some k := by cases k <;> rfl

def kind : Frame → Kind
  | events _ => .events
  | swapRequest => .swapRequest
  | swapNow => .swapNow

/-- The size of the longest body. -/
def maxPayload : Nat := 64 * 1024 * 1024

/-- The number of bytes of a frame. -/
def wireSize : Frame → Nat
  | events text => 5 + text.utf8ByteSize
  | _ => 1

/-- The bytes of a frame. -/
def encode : Frame → Except Error (List UInt8)
  | events text =>
    if maxPayload < text.utf8ByteSize then .error (.payloadTooLarge text.utf8ByteSize)
    else .ok (Kind.events.byte :: Word.uint32.encode (UInt32.ofNat text.utf8ByteSize) ++ utf8 text)
  | f => .ok [f.kind.byte]

/-- A frame that is not refused has as many bytes as `wireSize` says. -/
theorem length_encode {f : Frame} {bytes : List UInt8} (h : f.encode = .ok bytes) :
    bytes.length = f.wireSize := by
  cases f with
  | events text =>
    by_cases hl : maxPayload < text.utf8ByteSize
    · simp [encode, hl] at h
    · simp only [encode, hl, if_false, Except.ok.injEq] at h
      subst h
      simp [wireSize, Word.uint32]
      omega
  | swapRequest =>
    cases h
    rfl
  | swapNow =>
    cases h
    rfl

end Frame

/-- Encoded frames, one after the other. -/
structure Outbox where
  bytes : List UInt8
deriving DecidableEq, Repr

namespace Outbox

def empty : Outbox := ⟨[]⟩

/-- The outbox with a frame more, and the bytes of that frame. -/
def push (o : Outbox) (f : Frame) : Except Frame.Error (List UInt8 × Outbox) :=
  match f.encode with
  | .error e => .error e
  | .ok bytes => .ok (bytes, ⟨o.bytes ++ bytes⟩)

end Outbox
end Lockstep
