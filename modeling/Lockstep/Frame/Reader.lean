import Lockstep.Frame.Basic

/- Frames from bytes as they arrive.

   1. A `Reader` holds the bytes that were fed and not read yet. `next` gives the next frame or what
      is wrong with it, or nothing while a frame is not complete.
   2. Bytes that start no frame are skipped. A body that is no text is an error, and reading goes on
      after it. A length over the limit is an error that nothing can follow: every byte held is
      dropped.
   3. `drain` gives all there is. -/
namespace Lockstep

/-- Bytes fed and not read. -/
structure Reader where
  held : List UInt8
deriving DecidableEq, Repr

namespace Reader
open Lockstep.Frame

def empty : Reader := ⟨[]⟩

/-- The reader after more bytes arrived. -/
def feed (r : Reader) (bytes : List UInt8) : Reader := ⟨r.held ++ bytes⟩

/-- The number of bytes not read. -/
def remaining (r : Reader) : Nat := r.held.length

/-- A byte that starts no frame. -/
def isNoise (b : UInt8) : Bool := (Kind.ofByte? b).isNone

/-- The body after the byte of a frame of events: `held` starts with that byte, `rest` follows it. -/
def nextBody (held rest : List UInt8) : Option (Except Error Frame) × Reader :=
  if rest.length < 4 then (none, ⟨held⟩)
  else
    let size := (Word.uint32.decode (rest.take 4)).toNat
    if maxPayload < size then (some (.error (.payloadTooLarge size)), ⟨[]⟩)
    else
      let body := rest.drop 4
      if body.length < size then (none, ⟨held⟩)
      else
        match ofUtf8? (body.take size) with
        | some text => (some (.ok (.events text)), ⟨body.drop size⟩)
        | none => (some (.error .invalidUtf8), ⟨body.drop size⟩)

/-- The next frame. -/
def next (r : Reader) : Option (Except Error Frame) × Reader :=
  match r.held.dropWhile isNoise with
  | [] => (none, ⟨[]⟩)
  | b :: rest =>
    if b = Kind.swapRequest.byte then (some (.ok .swapRequest), ⟨rest⟩)
    else if b = Kind.swapNow.byte then (some (.ok .swapNow), ⟨rest⟩)
    else nextBody (b :: rest) rest

/-- A frame that comes out leaves fewer bytes. -/
theorem length_next_lt {r r' : Reader} {f : Except Error Frame} (h : r.next = (some f, r')) :
    r'.held.length < r.held.length := by
  have hd := (List.dropWhile_sublist (l := r.held) isNoise).length_le
  unfold next at h
  split at h
  · cases h
  · rename_i b rest hb
    rw [hb, List.length_cons] at hd
    split at h
    · cases h
      exact hd
    · split at h
      · cases h
        exact hd
      · unfold nextBody at h
        split at h
        · cases h
        · simp only at h
          split at h
          · cases h
            exact Nat.lt_of_lt_of_le (Nat.succ_pos _) hd
          · split at h
            · cases h
            · split at h <;> cases h <;> simp only [List.length_drop] <;> omega

/-- All frames there are, and the reader after them. -/
def drain (r : Reader) : List (Except Error Frame) × Reader :=
  match _h : r.next with
  | (none, r') => ([], r')
  | (some f, r') =>
    let (fs, r'') := drain r'
    (f :: fs, r'')
termination_by r.held.length
decreasing_by exact length_next_lt _h

end Reader
end Lockstep
