import Lockstep.Frame.Reader

/- Streams of frames, as they are written and as they are read.

   1. `Outbox.pushAll` pushes frames one after the other. A frame that is refused leaves the outbox
      as it was.
   2. A reader is fed and asked for frames in any order: a `Use` is one or the other, and `decode` is
      all that a new reader gives over some uses and the drain after them. The bytes that the uses
      feed can be cut anywhere.
   3. A `Piece` is what a reader takes from the front of the bytes at a time. It says which bytes it is
      made of and what the reader gives for it. `Reads` says that bytes begin with pieces. Bytes that
      begin a frame of events and do not finish it are `Incomplete`. -/
namespace Lockstep

/-! ## Writing -/

/-- Whether a frame can be sent: a text is within the limit. -/
def Frame.fits : Frame → Bool
  | .events text => decide (text.utf8ByteSize ≤ maxPayload)
  | _ => true

/-- Frames pushed one after the other: what each push gave, and the outbox after them. -/
def Outbox.pushAll (o : Outbox) :
    List Frame → List (Except Frame.Error (List UInt8)) × Outbox
  | [] => ([], o)
  | f :: fs =>
    match o.push f with
    | .error e =>
      let (given, o') := o.pushAll fs
      (.error e :: given, o')
    | .ok (bytes, afterFrame) =>
      let (given, o') := afterFrame.pushAll fs
      (.ok bytes :: given, o')

/-- The bytes that pushes gave, each with some bytes in front of it. -/
def Outbox.interleave (noise : List (List UInt8))
    (given : List (Except Frame.Error (List UInt8))) : List UInt8 :=
  (noise.zip given).flatMap fun p => p.1 ++ p.2.toOption.getD []

/-! ## Reading -/

namespace Reader
open Lockstep.Frame

/-- What is done with a reader at a time. -/
inductive Use where
  | feed (bytes : List UInt8)
  | next
deriving DecidableEq, Repr

/-- The bytes that a use feeds. -/
def Use.bytes : Use → List UInt8
  | feed bytes => bytes
  | next => []

/-- The bytes that some uses feed. -/
def fed (uses : List Use) : List UInt8 := uses.flatMap Use.bytes

/-- What a use gives, and the reader after it. -/
def use (r : Reader) : Use → Option (Except Error Frame) × Reader
  | .feed bytes => (none, r.feed bytes)
  | .next => r.next

/-- What some uses give, and the reader after them. -/
def useAll (r : Reader) : List Use → List (Except Error Frame) × Reader
  | [] => ([], r)
  | u :: us =>
    let (given, afterUse) := r.use u
    let (more, r') := afterUse.useAll us
    (given.toList ++ more, r')

/-- What a new reader gives over some uses and a drain after them. -/
def decode (uses : List Use) : List (Except Error Frame) × Reader :=
  let (given, r) := empty.useAll uses
  let (more, r') := r.drain
  (given ++ more, r')

/-- What a reader gives, up to the first length over the limit. What comes after it depends on how
    many bytes were lost with it. -/
def upToLoss : List (Except Error Frame) → List (Except Error Frame)
  | [] => []
  | .error (.payloadTooLarge size) :: _ => [.error (.payloadTooLarge size)]
  | result :: results => result :: upToLoss results

end Reader

/-! ## Pieces -/

/-- What a reader takes from its bytes at a time. -/
inductive Piece where
  /-- A byte that starts no frame. -/
  | noise (b : UInt8)
  | swapRequest
  | swapNow
  /-- A frame of events, with the body that follows the length. -/
  | events (body : List UInt8)
  /-- A length over the limit, with the bytes that are dropped behind it. -/
  | overlong (size : UInt32) (lost : List UInt8)
deriving DecidableEq, Repr

namespace Piece
open Lockstep.Frame

/-- The bytes of a piece. -/
def bytes : Piece → List UInt8
  | noise b => [b]
  | swapRequest => [2]
  | swapNow => [3]
  | events body => 1 :: (Word.uint32.encode (UInt32.ofNat body.length) ++ body)
  | overlong size lost => 1 :: (Word.uint32.encode size ++ lost)

/-- What a reader gives for a piece. -/
def gives : Piece → Option (Except Error Frame)
  | noise _ => none
  | swapRequest => some (.ok .swapRequest)
  | swapNow => some (.ok .swapNow)
  | events body =>
    match ofUtf8? body with
    | some text => some (.ok (.events text))
    | none => some (.error .invalidUtf8)
  | overlong size _ => some (.error (.payloadTooLarge size.toNat))

/-- Pieces with which reading goes on where they end. -/
def Framed : Piece → Prop
  | noise b => b ≠ 1 ∧ b ≠ 2 ∧ b ≠ 3
  | swapRequest | swapNow => True
  | events body => body.length ≤ maxPayload
  | overlong _ _ => False

/-- All pieces that there are. -/
def Sound : Piece → Prop
  | overlong size _ => maxPayload < size.toNat
  | p => p.Framed

end Piece

/-- Bytes begin with sound pieces that give some results, and the rest of them is left. -/
def Reads (held : List UInt8) (results : List (Except Frame.Error Frame)) (left : List UInt8) :
    Prop :=
  ∃ pieces : List Piece, (∀ p ∈ pieces, p.Sound) ∧ held = pieces.flatMap Piece.bytes ++ left ∧
    results = pieces.filterMap Piece.gives

/-- No bytes, or the beginning of a frame of events of which something is missing, with a length
    within the limit once the length is there. -/
def Incomplete (held : List UInt8) : Prop :=
  held = [] ∨ ∃ word body rest : List UInt8, 1 :: (word ++ body) = held ++ rest ∧ rest ≠ [] ∧
    word.length = 4 ∧ body.length = (Word.uint32.decode word).toNat ∧
    (5 ≤ held.length → body.length ≤ Frame.maxPayload)

end Lockstep
